import Unboxing.Proofs.BranchExecution

/-
  What an unboxed method does. Every run of a verified body is
  matched by a run of the body that comes out, from the same
  arguments: it takes the same branches, and it returns the same
  primitive, the same reference, or another box of the same
  payload. At the start, receiver and arguments lie at the same
  addresses in both and represent themselves.

  Main declarations:
    * `Method.Verified.verified`
    * `World.Mirrored.start`
    * `Simulation.Matched`
    * `Simulation.Translation.step`
    * `Simulation.Translation.runs`
    * `Method.unboxed_runs_match`
-/

namespace Unboxing

open List Simulation SlotMap

-- Layouts of arguments

/- Values of types other than that of all values lie where their types do. -/
theorem World.startingAt?_ofArguments
    {world : World} {arguments : List world.Val} {types : List FrameType}
    (hTypes : Forall₂ world.HasType arguments types)
    (hTop : ∀ type ∈ types, type ≠ .top) (slot : Nat) :
    Option.Rel world.HasType (Locals.ofArguments arguments slot)
      ((Layout.ofList types).startingAt? slot) := by
  have hExtend (values : Layout world.Val) (layout : Layout FrameType)
      (hCells : values.cells = layout.cells)
      (hSlots : ∀ slot, Option.Rel world.HasType (values.startingAt? slot)
        (layout.startingAt? slot)) :
      Option.Rel world.HasType ((values.extend arguments).startingAt? slot)
        ((layout.extend types).startingAt? slot) := by
    induction hTypes generalizing values layout with
    | nil => exact hSlots slot
    | @cons value type arguments types hType _ ih =>
      apply ih (forall_mem_cons.mp hTop).2 (values.push value) (layout.push type)
      · have hWidth := hType.width_eq (hTop type (mem_cons_self ..))
        rw [Layout.push, Layout.push, hCells, hWidth]
      · intro other
        have hOther := hSlots other
        rw [Layout.startingAt?_push, Layout.startingAt?_push, hCells]
        generalize values.startingAt? other = found at hOther ⊢
        generalize layout.startingAt? other = declared at hOther ⊢
        cases hOther with
        | some hOld => exact .some hOld
        | none =>
          by_cases hHere : layout.cells = other
          · simp only [Option.none_or, if_pos hHere]
            exact .some hType
          · simp only [Option.none_or, if_neg hHere]
            exact .none
  exact hExtend .empty .empty rfl fun _ => .none

-- The first frame

namespace Method

variable {method : Method}

/- The parameters are of types that have values of one width. -/
theorem initialFrame_ne_top {owner : ClassName} {type : FrameType}
    (hType : type ∈ (method.initialFrame owner).locals.elements) :
    type ≠ .top := by
  have hField (type : FieldType) : FrameType.ofFieldType type ≠ .top := by
    cases type with
    | base type => cases type <;> rintro ⟨⟩
    | ref type => rintro ⟨⟩
  rw [initialFrame, Layout.elements_ofList, mem_append] at hType
  rcases hType with hReceiver | hParameter
  · split at hReceiver
    · cases hReceiver
    · split at hReceiver
      · cases mem_singleton.mp hReceiver
        rintro ⟨⟩
      · cases mem_singleton.mp hReceiver
        rintro ⟨⟩
  · rcases mem_map.mp hParameter with ⟨parameter, _, rfl⟩
    exact hField parameter

/- The first frame has the cells of receiver and parameters. -/
theorem cells_initialFrame (method : Method) (owner : ClassName) :
    (method.initialFrame owner).locals.cells = method.type.parameterCells !method.isStatic := by
  have hWidth : width ∘ FrameType.ofFieldType = FieldType.width := by
    funext type
    cases type with
    | base type => cases type <;> rfl
    | ref type => rfl
  have hCells (receiver : List FrameType) :
      (Layout.ofList (receiver ++ method.type.parameters.map .ofFieldType)).cells =
        total (receiver.map width) +
          total (method.type.parameters.map FieldType.width) := by
    rw [Layout.ofList, Layout.cells_extend, map_append, total_append, map_map, hWidth]
    exact Nat.zero_add _
  rw [initialFrame, hCells, MethodType.parameterCells]
  cases method.isStatic with
  | true => rfl
  | false => cases method.isConstructor <;> rfl

/- A verified method whose body is gone through to its end. -/
theorem Verified.verified
    {assignable : FrameType → FrameType → Bool} {reg : Registry}
    {settings : Settings} {layout : ClassLayout} {body : Body} {last : State}
    (hVerified : method.Verified assignable layout.name body)
    (hMethod : method.isConstructor = false)
    (hLast : stateAfter (.ofMethod reg settings layout method body)
      body.nodes.length = some last) :
    Simulation.Verified (method.verifier assignable layout.name body)
      (.ofFrame (method.initialFrame layout.name))
      (.ofMethod reg settings layout method body) last where
  checks := by
    refine ⟨rfl, rfl, ?_⟩
    intro l frame hFrame
    refine ⟨?_, SourceFrames.ascending_frame? (.ofList _) hFrame⟩
    exact hVerified.frames (l, frame) (SourceFrames.mem_of_frame? hFrame)
  start := by
    refine ⟨⟨?_, ?_, ?_⟩, rfl⟩
    · intro entry hEntry
      cases hEntry
    · intro slot
      change ((method.initialLocals reg layout.name body).tagAt slot).isPayloadArray
        = false
      rw [tagAt_initialLocals hMethod hVerified.initial, Tag.isPayloadArray,
        Bool.eq_false_iff.mpr (declaredTag_not_payload reg _ slot)]
      rfl
    · intro l join hJoin
      cases hJoin
  basic := hVerified.basic
  typed := hVerified.typed
  last := hLast

end Method

-- Arguments

namespace World

variable {world : World} {method : Method} {owner : ClassName}
variable {arguments : List world.Val}

section

variable (hArguments : Forall₂ world.HasType arguments
  (method.initialFrame owner).locals.elements)
include hArguments

/- A slot that the first frame gives a type has an argument of that type. -/
theorem argument_at {slot : Nat}
    (hTop : (Typing.ofFrame (method.initialFrame owner)).locals slot ≠ .top) :
    ∃ type value, (method.initialFrame owner).locals.startingAt? slot = some type ∧
        Locals.ofArguments arguments slot = some value ∧ world.HasType value type := by
  have hLayout : (method.initialFrame owner).locals =
      .ofList (method.initialFrame owner).locals.elements := by
    rw [Method.initialFrame, Layout.elements_ofList]
  have hSlot := world.startingAt?_ofArguments hArguments
    (fun _ => method.initialFrame_ne_top) slot
  rw [← hLayout] at hSlot
  simp only [Typing.ofFrame] at hTop
  generalize Locals.ofArguments arguments slot = found at hSlot ⊢
  generalize (method.initialFrame owner).locals.startingAt? slot = declared
    at hSlot hTop ⊢
  cases hSlot with
  | some hType => exact ⟨_, _, rfl, rfl, hType⟩
  | none => exact absurd rfl hTop

theorem Typed.start :
    world.Typed (.ofFrame (method.initialFrame owner)) [] (.ofArguments arguments) := by
  constructor
  · exact .nil
  · intro slot hTop
    rcases argument_at hArguments hTop with ⟨type, value, hStart, hValue, hType⟩
    refine ⟨value, hValue, ?_⟩
    simp only [Typing.ofFrame, hStart]
    exact hType

end

theorem Mirrored.start
    {reg : Registry} {settings : Settings} {layout : ClassLayout} {body : Body}
    (hMethod : method.isConstructor = false)
    (hFrame : (method.initialFrame layout.name).isWellFormed = true)
    (hArguments : Forall₂ world.HasType arguments
      (method.initialFrame layout.name).locals.elements) :
    let ctx := Context.ofMethod reg settings layout method body
    world.Mirrored reg ctx.plan (.ofFrame (method.initialFrame layout.name))
      (State.start ctx).stack.entries (State.start ctx).locals []
      (.ofArguments arguments) [] (.ofArguments arguments) := by
  intro ctx
  constructor
  · exact .nil
  · intro slot hTop
    rcases argument_at hArguments hTop with ⟨type, value, hStart, hValue, hType⟩
    have hInside : slot ≤ method.type.parameterCells !method.isStatic := by
      have hAscending : (method.initialFrame layout.name).locals.Ascending := .ofList _
      rw [← method.cells_initialFrame layout.name]
      exact Nat.le_of_add_right_le (hAscending.add_width_le hStart)
    have hAddress : planned ctx.plan slot = slot :=
      planned_slotPlan_of_le body hInside
    have hTag : (State.start ctx).locals.tagAt slot = reg.tagOfFrame type := by
      change (method.initialLocals reg layout.name body).tagAt slot = _
      rw [Method.tagAt_initialLocals hMethod hFrame, declaredTag, hStart]
      rfl
    refine ⟨value, value, hValue, ?_, ?_⟩
    · rw [hAddress]
      exact hValue
    · rw [hTag]
      exact .of_hasType hType
        (method.initialFrame_ne_top (mem_map_of_mem
          (Layout.mem_of_startingAt? hStart)))
        (Frame.isWellFormed_local hFrame hStart)

end World

-- Places of both bodies

namespace Simulation

variable {world : World} {verifier : Verifier} {initial : Typing}
variable {ctx : Context} {last : State}
variable {frames : List (Handle × FrameChange)} {i : Nat} {st : State}
variable {node : Node} {typing : Option Typing}

/- A verified body, the body that comes out, and what both run in. -/
structure Translation (world : World) (verifier : Verifier) (initial : Typing)
    (ctx : Context) (last : State) (frames : List (Handle × FrameChange)) : Prop where
  helpers : world.Helpers ctx.reg
  sound : world.Sound verifier.assignable
  verified : Verified verifier initial ctx last
  frames : ForFrames ctx frames

/-
  A place of a body and the same place of the body that comes
  out, with stack and locals mirrored, or the same result.
-/
inductive Matched (world : World) (verifier : Verifier) (initial : Typing)
    (ctx : Context) (frames : List (Handle × FrameChange)) :
    world.Config → world.Config → Prop where
  | running
      {i : Nat} {typing : Typing} {st : State} {values mirrors : List world.Val}
      {locals mirror : Locals world.Object}
      (hTyping : verifier.typingAt? initial ctx.body.nodes i = some (some typing))
      (hState : stateAfter ctx i = some st)
      (hTyped : world.Typed typing values locals)
      (hMirrored : world.Mirrored ctx.reg ctx.plan typing
        st.stack.entries st.locals values locals mirrors mirror) :
      Matched world verifier initial ctx frames
        (.running (ctx.body.nodes.drop i) values locals)
        (.running (outputFrom ctx frames i) mirrors mirror)
  | returned
      {result image : Option world.Val}
      (hSame : Option.Rel (world.SameResult ctx.reg) result image) :
      Matched world verifier initial ctx frames (.returned result)
        (.returned image)

theorem Matched.start {locals mirror : Locals world.Object}
    (hTyped : world.Typed initial [] locals)
    (hMirrored : world.Mirrored ctx.reg ctx.plan initial
      (State.start ctx).stack.entries (State.start ctx).locals [] locals []
      mirror) :
    Matched world verifier initial ctx frames
      (.running ctx.body.nodes [] locals)
      (.running (outputFrom ctx frames 0) [] mirror) := by
  have hTyping : verifier.typingAt? initial ctx.body.nodes 0 = some (some initial) := rfl
  have hState : stateAfter ctx 0 = some (State.start ctx) := rfl
  exact .running hTyping hState hTyped hMirrored

section

variable (hVerified : Verified verifier initial ctx last)
include hVerified

/- What is agreed at a label is so until the end. -/
theorem Verified.agreed_last {i : Nat} {st : State} {l : Label} {join : Join}
    (hInside : i ≤ ctx.body.nodes.length) (hState : stateAfter ctx i = some st)
    (hJoin : st.agreed.lookup l = some join) :
    last.agreed.lookup l = some join := by
  by_cases hEnd : i = ctx.body.nodes.length
  · subst hEnd
    cases hState.symm.trans hVerified.last
    exact hJoin
  · have hNode : ctx.body.nodes[i]? = some ctx.body.nodes[i] :=
      getElem?_eq_getElem (by omega)
    rcases hVerified.passage hNode with ⟨_, _, same, mid, hPassage, _⟩
    cases hState.symm.trans hPassage.before
    have hPast := step_ok hPassage.placed hPassage.step
    exact Verified.agreed_last (by omega) hPassage.after (hPast.agreed l join hJoin)
termination_by ctx.body.nodes.length - i

/- After a label with a frame control goes on with what was agreed anywhere. -/
theorem Verified.lands
    {j : Nat} {next : Option Typing} {mid : State} {l : Label} {frame : Frame}
    {join : Join} (hPassage : Passage verifier ctx i node typing next st mid)
    (hJoin : mid.agreed.lookup l = some join)
    (hFrame : verifier.frames.frame? l = some frame)
    (hPlace : ctx.body.nodes[j]? = some (.label l)) :
    ∃ old before landed,
      Passage verifier ctx j (.label l) old (some (.ofFrame frame)) before landed ∧
        verifier.typingAt? initial ctx.body.nodes (j + 1) = some (some (.ofFrame frame)) ∧
        landed.stack.entries = join.stack.entries ∧ landed.locals.cells = join.locals.cells ∧
        join.Suits ctx.reg frame := by
  have hLast := hVerified.agreed_last hPassage.inside hPassage.after hJoin
  rcases hVerified.passage hPlace with
    ⟨old, _, before, landed, hLanded, _, hLandedNext⟩
  rcases Verifier.step_label_frame hFrame hLanded.verified with ⟨rfl, _⟩
  rw [hVerified.checks.frames] at hFrame
  rcases (step_label_ok hLanded.placed hLanded.step).agreed hFrame with
    ⟨found, hFound, hEntries, hCells⟩
  have hSame : found = join := Option.some.inj
    ((hVerified.agreed_last hLanded.inside hLanded.after hFound).symm.trans hLast)
  subst hSame
  rcases hVerified.tracked (Nat.le_refl _) with ⟨_, _, _, hState, hTracked⟩
  cases hState.symm.trans hVerified.last
  rcases hTracked.fitting.joins l found hLast with ⟨same, hSameFrame, hSuits⟩
  cases hFrame.symm.trans hSameFrame
  exact ⟨old, before, landed, hLanded, hLandedNext, hEntries, hCells, hSuits⟩

/- The elements of a place are gone past one by one. -/
theorem Verified.passage_at {rest : List Node}
    (hTyping : verifier.typingAt? initial ctx.body.nodes i = some typing)
    (hState : stateAfter ctx i = some st)
    (hRest : ctx.body.nodes.drop i = node :: rest) :
    rest = ctx.body.nodes.drop (i + 1) ∧
      ∃ next mid, Passage verifier ctx i node typing next st mid ∧
        verifier.typingAt? initial ctx.body.nodes (i + 1) = some next := by
  have hNode : ctx.body.nodes[i]? = some node := by
    have hHead := congrArg List.head? hRest
    rwa [head?_drop] at hHead
  refine ⟨?_, ?_⟩
  · rw [← tail_drop, hRest]
    rfl
  · rcases hVerified.passage hNode with
      ⟨_, next, _, mid, hPassage, hSameTyping, hNext⟩
    cases hTyping.symm.trans hSameTyping
    cases hState.symm.trans hPassage.before
    exact ⟨next, mid, hPassage, hNext⟩

end

/- To run a block is to run its code and what becomes of its element. -/
theorem Passage.runs
    {next : Option Typing} {mid : State} {mirrors images : List world.Val}
    {mirror lastMirror : Locals world.Object} {out : List Node}
    {taken : List (Option Label)} {config : world.Config}
    (hPassage : Passage verifier ctx i node typing next st mid)
    (hFrames : ForFrames ctx frames)
    (hExec : world.ExecAll mid.edit.before mirrors mirror images lastMirror)
    (hStep : ∀ image, Becomes node mid.edit.fate image → world.Step out
        (.running (image :: outputFrom ctx frames (i + 1)) images lastMirror)
        taken config) :
    world.Runs out (.running (outputFrom ctx frames i) mirrors mirror) taken
      config := by
  rcases hPassage.block_eq hFrames with ⟨image, hBecomes, hBlock⟩
  rw [outputFrom_cons hPassage.inside, hBlock, append_assoc]
  exact (hExec.runs out _).trans (hStep image hBecomes).runs

-- Marks and instructions

theorem Becomes.isMark {image : Node} {edit : Edit}
    (hBecomes : Becomes node edit.fate image) (hStays : Stays node edit)
    (hMark : node.isMark = true) :
    image.isMark = true := by
  rcases hStays with hKept | ⟨hNode, _⟩
  · rw [hKept] at hBecomes
    cases hBecomes with
    | kept => exact hMark
    | frame => rfl
  · exact absurd (hMark.symm.trans hNode) nofun

namespace Translation

variable {i : Nat} {typing : Typing} {next : Option Typing} {st mid : State}
variable {values mirrors : List world.Val} {locals mirror : Locals world.Object}
variable {node : Node} {b : Branch} {rest : List world.Val}

/-
  The run of a place, and the place that it leads to. In the
  theorems below the run is along the body that comes out.
-/
def Answers (world : World) (verifier : Verifier) (initial : Typing) (ctx : Context)
    (frames : List (Handle × FrameChange)) (first : world.Config)
    (taken : List (Option Label)) (config : world.Config) : Prop :=
  ∃ output, world.Runs (outputFrom ctx frames 0) first taken output ∧
    Matched world verifier initial ctx frames config output

/- What is mirrored after an element is so at the next place. -/
theorem matched_next {found : Option Typing} {typed : Typing}
    (hPassage : Passage verifier ctx i node found (some typed) st mid)
    (hNext : verifier.typingAt? initial ctx.body.nodes (i + 1) = some (some typed))
    (hTyped : world.Typed typed values locals)
    (hMirrored : world.Mirrored ctx.reg ctx.plan typed mid.stack.entries
      mid.locals values locals mirrors mirror) :
    Matched world verifier initial ctx frames
      (.running (ctx.body.nodes.drop (i + 1)) values locals)
      (.running (outputFrom ctx frames (i + 1)) mirrors mirror) :=
  .running hNext hPassage.after hTyped hMirrored

/- The instruction that is used comes out. -/
theorem becomes_used {found wanted : Instruction} {code : List Instruction} {image : Node}
    (hBecomes :
      Becomes (.insn found) ((Edit.none.emit code).use found wanted).fate image) :
    image = .insn wanted := by
  unfold Edit.use at hBecomes
  split at hBecomes
  · rename_i hSame
    subst hSame
    rw [Edit.fate_emit] at hBecomes
    cases hBecomes with
    | kept => rfl
    | frame hFrame => cases hFrame
  · cases hBecomes
    rfl

/- What stands in the place of a branch comes out. -/
theorem becomes_standing {other : Branch} {edit : Edit} {image : Node}
    (hStands : Stands b other edit) (hBecomes : Becomes (.branch b) edit.fate image) :
    image = .branch other := by
  rcases hStands with ⟨hKept, rfl⟩ | hReplaced
  · rw [hKept] at hBecomes
    cases hBecomes with
    | kept => rfl
    | frame hFrame => cases hFrame
  · rw [hReplaced] at hBecomes
    cases hBecomes
    rfl

/- What is known after a branch, at its labels and if control falls through. -/
structure Turned (verifier : Verifier) (ctx : Context) (b : Branch)
    (typing popped : Typing) (next : Option Typing) (turned mid : State) : Prop where
  passed : verifier.Passed typing popped b
  next : next = if b.fallsThrough then some popped else none
  agrees : ∀ l ∈ b.labels, ∃ join,
    mid.agreed.lookup l = some join ∧ Agrees turned b.takes.length join
  locals : mid.locals = turned.locals
  entries : b.fallsThrough = true → mid.stack.entries = turned.stack.entries.drop b.takes.length

section

variable (hTranslation : Translation world verifier initial ctx last frames)
include hTranslation

section

variable (hTyped : world.Typed typing values locals)
variable (hMirrored : world.Mirrored ctx.reg ctx.plan typing
  st.stack.entries st.locals values locals mirrors mirror)
include hTyped hMirrored

/- Nothing happens at a mark, but code may lead to a label. -/
theorem mark_code
    (hPassage : Passage verifier ctx i node (some typing) next st mid)
    (hMark : node.isMark = true) :
    ∃ typed images lastMirror, next = some typed ∧
      world.ExecAll mid.edit.before mirrors mirror images lastMirror ∧
        world.Typed typed values locals ∧
          world.Mirrored ctx.reg ctx.plan typed mid.stack.entries
            mid.locals values locals images lastMirror := by
  have hVerified := hPassage.verified
  have hStep := hPassage.step
  have hNoCode : world.ExecAll st.edit.before mirrors mirror mirrors mirror := by
    rw [hPassage.between.edit]
    exact .nil _ _
  cases node with
  | label l =>
    rcases (step_label_ok hPassage.placed hStep).exec hTranslation.helpers
      hTranslation.sound hTranslation.verified.checks hPassage.placed
      hPassage.tracked hVerified hTyped hMirrored with
      ⟨typed, code, images, lastMirror, rfl, hEdit, hExec, hTypedNext, hNext⟩
    refine ⟨typed, images, lastMirror, rfl, ?_, hTypedNext, hNext⟩
    rw [hEdit, hPassage.kept, Edit.before_emit]
    exact hExec
  | line number =>
    cases hVerified
    cases hStep
    exact ⟨typing, mirrors, mirror, rfl, hNoCode, hTyped, hMirrored⟩
  | frame change =>
    cases hVerified
    rcases step_frame_ok hStep with ⟨_, _, rfl, _⟩
    exact ⟨typing, mirrors, mirror, rfl, hNoCode, hTyped, hMirrored⟩
  | insn i | branch b => cases hMark

theorem mark (hPassage : Passage verifier ctx i node (some typing) next st mid)
    (hNext : verifier.typingAt? initial ctx.body.nodes (i + 1) = some next)
    (hMark : node.isMark = true) :
    Answers world verifier initial ctx frames
      (.running (outputFrom ctx frames i) mirrors mirror) []
      (.running (ctx.body.nodes.drop (i + 1)) values locals) := by
  rcases hTranslation.mark_code hTyped hMirrored hPassage hMark with
    ⟨typed, images, lastMirror, rfl, hExec, hTypedNext, hMirroredNext⟩
  refine ⟨_, hPassage.runs hTranslation.frames hExec ?_,
    matched_next hPassage hNext hTypedNext hMirroredNext⟩
  intro image hBecomes
  exact .mark (hBecomes.isMark hPassage.stays hMark) _ _ _

/- An instruction is followed by what is put in its place. -/
theorem insn {instruction : Instruction} {lastValues : List world.Val}
    {lastLocals : Locals world.Object}
    (hPassage :
      Passage verifier ctx i (.insn instruction) (some typing) next st mid)
    (hNext : verifier.typingAt? initial ctx.body.nodes (i + 1) = some next)
    (hExec : world.Exec instruction values locals lastValues lastLocals) :
    Answers world verifier initial ctx frames
      (.running (outputFrom ctx frames i) mirrors mirror) []
      (.running (ctx.body.nodes.drop (i + 1)) lastValues lastLocals) := by
  rcases Option.map_eq_some_iff.mp hPassage.verified with ⟨typed, hAfter, rfl⟩
  have hReachable := hPassage.tracked.reachable
  rcases step_insn_ok hReachable hPassage.step with ⟨done, hDone, rfl⟩
  have hTransfer := instruction_ok hPassage.basic hPassage.placed hDone hPassage.issues
  have hPast := step_ok hPassage.placed hPassage.step
  have hFollows := hMirrored.transfer hTranslation.helpers hTyped
    hTransfer hPassage.placed.locals hPast.placed.locals hAfter hExec
  rcases hFollows with ⟨code, wanted, images, lastMirror, hEdit, hCode, hLast⟩
  have hKept : ({ st with here := i } : State).bench.edit = .none := hPassage.kept
  rw [hKept] at hEdit
  have hBlock : outputBlock ctx frames i = (code ++ [wanted]).map .insn := by
    rcases hPassage.block_eq hTranslation.frames with ⟨image, hBecomes, hBlock⟩
    change Becomes _ done.bench.edit.fate image at hBecomes
    change _ = done.bench.edit.before.map .insn ++ [image] at hBlock
    rw [hEdit] at hBecomes hBlock
    rw [hBlock, Edit.before_use, Edit.before_emit, becomes_used hBecomes]
    simp [Edit.before, Edit.none]
  refine ⟨_, ?_, matched_next hPassage hNext (hTyped.exec hAfter hExec) hLast⟩
  rw [outputFrom_cons hPassage.inside, hBlock]
  exact hCode.runs _ _

-- Branches

section

variable (hPassage : Passage verifier ctx i (.branch b) (some typing) next st mid)
include hPassage

theorem departure {target : Option Label} (hDecide : b.decide? values = some (target, rest)) :
    ∃ popped other turned images lastMirror,
      Turned verifier ctx b typing popped next turned mid ∧
        Departure world ctx.reg ctx.plan b other popped
          { st with here := i } turned mid mid.edit.before mirrors images locals
          mirror lastMirror target rest := by
  rcases Verifier.branch?_ok hPassage.verified with ⟨popped, hPassed, hNext⟩
  rcases step_branch_ok hPassage.tracked.reachable hPassage.step with
    ⟨marked, done, hMark, hEffect, hDeparted⟩
  have hHeld := Steps.held (steps_markSeeding trivial) hMark
  have hSame := bench_markSeeding hMark
  have hMarked := Steps.placed (steps_markSeeding trivial) hPassage.placed hMark
  have hEntries : marked.stack.entries = st.stack.entries :=
    congrArg Bench.entries hSame
  have hLocals : marked.locals = st.locals := congrArg Bench.locals hSame
  have hEdit : marked.edit = .none :=
    (congrArg Bench.edit hSame).trans hPassage.kept
  have hLeaves : ∀ kind, b ≠ .ret kind := by
    rintro kind rfl
    simp [Branch.decide?] at hDecide
  rcases branchEffect_ok hPassage.basic hLeaves hMarked hEffect with
    ⟨other, readied, turned, hDeparts⟩
  rw [← hEntries, ← hLocals] at hMirrored
  rcases hDeparts.exec hTranslation.helpers hTranslation.sound
    hTranslation.verified.checks (congrArg Edit.fate hEdit)
    (hPassage.tracked.fitting.of_held hHeld hSame) hPassed hTyped hMirrored hDecide
    with ⟨code, images, lastMirror, hDeparture⟩
  have hDone : done.locals = turned.locals := congrArg Bench.locals hDeparts.bench
  have hCode : mid.edit.before = code := by
    rw [hDeparted.edit, hDeparture.before, hEdit]
    rfl
  refine ⟨popped, other, turned, images, lastMirror,
    ⟨hPassed, hNext, ?_, hDeparted.locals.trans hDone, ?_⟩, ?_, ?_, ?_,
    hDeparture.decides, hDeparture.stacked, hDeparture.shown⟩
  · rw [hDeparted.agreed, hDeparts.held.agreed]
    exact hDeparts.agrees
  · intro hFalls
    exact (hDeparted.falls hFalls).2.trans (congrArg Bench.entries hDeparts.bench)
  · rw [hPassage.kept]
    rfl
  · rw [hDeparted.edit]
    exact hDeparture.stands
  · rw [hCode]
    exact hDeparture.exec

theorem fall (hNext : verifier.typingAt? initial ctx.body.nodes (i + 1) = some next)
    (hDecide : b.decide? values = some (none, rest)) :
    Answers world verifier initial ctx frames
      (.running (outputFrom ctx frames i) mirrors mirror) [none]
      (.running (ctx.body.nodes.drop (i + 1)) rest locals) := by
  rcases hTranslation.departure hTyped hMirrored hPassage hDecide with
    ⟨popped, other, turned, images, lastMirror, hTurned, hDeparture⟩
  rcases Branch.decide?_ok hDecide with ⟨hRest, hFalls⟩
  change b.fallsThrough = true at hFalls
  have hPopped : world.Typed popped rest locals := by
    rw [hRest]
    exact hTyped.pop hTurned.passed.operands
  have hSome : next = some popped := by
    rw [hTurned.next, if_pos hFalls]
  subst hSome
  have hRestMirrored : world.Mirrored ctx.reg ctx.plan popped
      mid.stack.entries mid.locals rest locals (images.drop b.takes.length)
      lastMirror := by
    constructor
    · rw [hTurned.entries hFalls]
      exact hDeparture.stacked
    · rw [hTurned.locals]
      exact hDeparture.shown
  refine ⟨_, hPassage.runs hTranslation.frames hDeparture.exec ?_,
    matched_next hPassage hNext hPopped hRestMirrored⟩
  intro image hBecomes
  rw [becomes_standing hDeparture.stands hBecomes]
  exact .fall hDeparture.decides _ _

/- A branch that is taken comes to what is agreed at its target. -/
theorem jump {l : Label} {nodes : List Node} (hDecide : b.decide? values = some (some l, rest))
    (hTarget : afterLabel? l ctx.body.nodes = some nodes) :
    Answers world verifier initial ctx frames
      (.running (outputFrom ctx frames i) mirrors mirror) [some l]
      (.running nodes rest locals) := by
  have hVerified := hTranslation.verified
  rcases hTranslation.departure hTyped hMirrored hPassage hDecide with
    ⟨popped, other, turned, images, lastMirror, hTurned, hDeparture⟩
  rcases Branch.decide?_ok hDecide with ⟨rfl, hLabel⟩
  change l ∈ b.labels at hLabel
  have hStart : afterLabel? l (ctx.body.nodes.drop 0) = some nodes := hTarget
  rcases hVerified.afterLabel?_outputFrom hTranslation.frames hStart with
    ⟨j, hPlace, rfl, hOutput⟩
  rcases hTurned.passed.labels l hLabel with ⟨frame, hFrame, hFits⟩
  rcases hTurned.agrees l hLabel with ⟨join, hJoin, hAgrees⟩
  rcases hVerified.lands hPassage hJoin hFrame hPlace with
    ⟨_, _, landed, hLanded, hLandedNext, hEntries, hCells, hSuits⟩
  have hRestTyped : world.Typed (.ofFrame frame) (values.drop b.takes.length) locals :=
    (hTyped.pop hTurned.passed.operands).fits hTranslation.sound hFits
  have hRestMirrored : world.Mirrored ctx.reg ctx.plan (.ofFrame frame)
      landed.stack.entries landed.locals (values.drop b.takes.length) locals
      (images.drop b.takes.length) lastMirror := by
    rw [hEntries]
    exact hAgrees.mirrored hSuits
      (fun slot => popped.live_of_fits hTranslation.sound hFits) hDeparture.stacked
      hDeparture.shown hCells
  refine ⟨_, hPassage.runs hTranslation.frames hDeparture.exec ?_,
    matched_next hLanded hLandedNext hRestTyped hRestMirrored⟩
  intro image hBecomes
  rw [becomes_standing hDeparture.stands hBecomes]
  exact .jump hDeparture.decides hOutput _ _

end

end

-- Returns

/- What is done before a method returns. -/
theorem leaves {kind : Option ValueKind}
    (hPassage :
      Passage verifier ctx i (.branch (.ret kind)) (some typing) next st mid) :
    ∃ marked done, Leaves ctx kind marked done ∧ marked.bench = st.bench ∧
      mid.edit = done.edit := by
  rcases Verifier.branch?_ok hPassage.verified with ⟨popped, hPassed, _⟩
  rcases step_branch_ok hPassage.tracked.reachable hPassage.step with
    ⟨marked, done, hMark, hEffect, hDeparted⟩
  have hBench : marked.bench = st.bench := by
    rw [bench_markSeeding hMark]
    rfl
  refine ⟨marked, done, leave_ok ?_ hEffect, hBench, hDeparted.edit⟩
  intro hKind
  rcases hTranslation.verified.checks.result_of_ret hPassed hKind with
    ⟨type, hType, _⟩
  exact ⟨type, hType⟩

theorem leave
    (hPassage :
      Passage verifier ctx i (.branch (.ret none)) (some typing) next st mid) :
    Answers world verifier initial ctx frames
      (.running (outputFrom ctx frames i) mirrors mirror) [] (.returned none) := by
  rcases hTranslation.leaves hPassage with ⟨marked, done, hLeaves, hBench, hEdit⟩
  cases hLeaves
  have hNone : mid.edit = .none :=
    hEdit.trans ((congrArg Bench.edit hBench).trans hPassage.kept)
  have hExec : world.ExecAll mid.edit.before mirrors mirror mirrors mirror := by
    rw [hNone]
    exact .nil _ _
  refine ⟨_, hPassage.runs hTranslation.frames hExec ?_, .returned .none⟩
  intro image hBecomes
  rw [becomes_standing (.inl ⟨congrArg Edit.fate hNone, rfl⟩) hBecomes]
  exact .leave _ _ _

theorem ret {value : world.Val}
    (hPassage : Passage verifier ctx i (.branch (.ret (some value.kind)))
      (some typing) next st mid)
    (hMirrored : world.Mirrored ctx.reg ctx.plan typing
      st.stack.entries st.locals (value :: values) locals mirrors mirror) :
    Answers world verifier initial ctx frames
      (.running (outputFrom ctx frames i) mirrors mirror) []
      (.returned (some value)) := by
  rcases hTranslation.leaves hPassage with ⟨marked, done, hLeaves, hBench, hEdit⟩
  have hEntries : marked.stack.entries = st.stack.entries :=
    congrArg Bench.entries hBench
  have hMarked : marked.edit = .none := (congrArg Bench.edit hBench).trans hPassage.kept
  have hStacked := hMirrored.stack
  rw [← hEntries] at hStacked
  rcases hLeaves.exec hTranslation.helpers hStacked mirror with
    ⟨code, image, images, hCode, hExec, hSame⟩
  rw [hCode, hMarked] at hEdit
  have hBefore : mid.edit.before = code :=
    (congrArg Edit.before hEdit).trans (Edit.before_emit _ _)
  have hFate : mid.edit.fate = .kept := (congrArg Edit.fate hEdit).trans (Edit.fate_emit _ _)
  rw [← hBefore] at hExec
  refine ⟨_, hPassage.runs hTranslation.frames hExec ?_, .returned (.some hSame)⟩
  intro node hBecomes
  rw [becomes_standing (.inl ⟨hFate, rfl⟩) hBecomes, ← hSame.kind_eq]
  exact .ret image _ _ _

-- Runs

/- One step of a body is matched by a run of the body that comes out. -/
theorem step {source output config : world.Config} {taken : List (Option Label)}
    (hMatched : Matched world verifier initial ctx frames source output)
    (hStep : world.Step ctx.body.nodes source taken config) :
    Answers world verifier initial ctx frames output taken config := by
  cases hMatched with
  | returned => cases hStep
  | running hTyping hState hTyped hMirrored =>
    rename_i i typing st values mirrors locals mirror
    generalize hNodes : ctx.body.nodes.drop i = nodes at hStep
    have hPassage {node : Node} {rest : List Node}
        (hRest : ctx.body.nodes.drop i = node :: rest) :=
      hTranslation.verified.passage_at hTyping hState hRest
    cases hStep with
    | mark hMark =>
      rcases hPassage hNodes with ⟨rfl, next, mid, hPast, hNext⟩
      exact hTranslation.mark hTyped hMirrored hPast hNext hMark
    | insn hExec =>
      rcases hPassage hNodes with ⟨rfl, next, mid, hPast, hNext⟩
      exact hTranslation.insn hTyped hMirrored hPast hNext hExec
    | fall hDecide =>
      rcases hPassage hNodes with ⟨rfl, next, mid, hPast, hNext⟩
      exact hTranslation.fall hTyped hMirrored hPast hNext hDecide
    | jump hDecide hTarget =>
      rcases hPassage hNodes with ⟨_, next, mid, hPast, _⟩
      exact hTranslation.jump hTyped hMirrored hPast hDecide hTarget
    | leave =>
      rcases hPassage hNodes with ⟨_, next, mid, hPast, _⟩
      exact hTranslation.leave hPast
    | ret value =>
      rcases hPassage hNodes with ⟨_, next, mid, hPast, _⟩
      exact hTranslation.ret hPast hMirrored

/- Every run of a body is matched by a run of the body that comes out. -/
theorem runs {source output config : world.Config} {taken : List (Option Label)}
    (hMatched : Matched world verifier initial ctx frames source output)
    (hRuns : world.Runs ctx.body.nodes source taken config) :
    Answers world verifier initial ctx frames output taken config := by
  induction hRuns generalizing output with
  | refl => exact ⟨output, .refl output, hMatched⟩
  | step hStep _ ih =>
    rcases hTranslation.step hMatched hStep with ⟨between, hFirst, hBetween⟩
    rcases ih hBetween with ⟨final, hRest, hFinal⟩
    exact ⟨final, hFirst.trans hRest, hFinal⟩

end

end Translation

end Simulation

-- Methods

/- What runs have come to before and after unboxing: both go on, or both return. -/
inductive World.Config.Agrees {world : World}
    (reg : Registry) : world.Config → world.Config → Prop where
  | running
      (rest outputRest : List Node)
      (values mirrors : List world.Val)
      (locals mirror : Locals world.Object) :
      Agrees reg (.running rest values locals)
        (.running outputRest mirrors mirror)
  | returned
      {result image : Option world.Val}
      (hSame : Option.Rel (world.SameResult reg) result image) :
      Agrees reg (.returned result) (.returned image)

namespace Method

/-
  Every run of a verified body, from arguments of the declared
  types, is matched by a run of the unboxed body from the same
  arguments: it takes the same branches, and where the first
  returns the second does, with the same primitive, the same
  reference, or one to a value with the same payload.
-/
theorem unboxed_runs_match
    {world : World} {reg : Registry} {settings : Settings} {layout : ClassLayout}
    {method : Method} {body : Body} {unboxed : UnboxedBody}
    {assignable : FrameType → FrameType → Bool}
    (hHelpers : world.Helpers reg)
    (hSound : world.Sound assignable)
    (hConstructor : method.isConstructor = false)
    (hInitializer : method.isClassInitializer = false)
    (hVerified : method.Verified assignable layout.name body)
    (hUnbox : method.unbox reg settings layout body = .ok unboxed)
    {arguments : List world.Val}
    (hArguments : Forall₂ world.HasType arguments
      (method.initialFrame layout.name).locals.elements)
    {taken : List (Option Label)} {config : world.Config}
    (hRuns : world.Runs body.nodes (world.start body.nodes arguments) taken config) :
    ∃ output, world.Runs unboxed.body.nodes (world.start unboxed.body.nodes arguments) taken
          output ∧
        config.Agrees reg output := by
  rcases unbox_ok hUnbox with ⟨hEmpty, rfl⟩ | ⟨final, hRun⟩
  · -- An empty body has no run but the one that stays at its start.
    simp only [hEmpty, World.start] at hRuns ⊢
    cases hRuns with
    | refl => exact ⟨_, .refl _, .running _ _ _ _ _ _⟩
    | step hStep => cases hStep
  · have hSeeds : method.seedsFields layout = false := by
      simp [seedsFields, hConstructor, hInitializer]
    rcases run_ok hRun with ⟨_, last, hLast, _⟩
    rcases output_eq hSeeds hRun with ⟨frames, hFrames, hOutput⟩
    have hTranslation : Translation world (method.verifier assignable layout.name body)
        (.ofFrame (method.initialFrame layout.name))
        (.ofMethod reg settings layout method body) last frames :=
      ⟨hHelpers, hSound, hVerified.verified hConstructor hLast, hFrames⟩
    have hStart : Matched world (method.verifier assignable layout.name body)
        (.ofFrame (method.initialFrame layout.name))
        (.ofMethod reg settings layout method body) frames
        (world.start body.nodes arguments)
        (world.start unboxed.body.nodes arguments) := by
      rw [World.start, World.start, hOutput]
      exact .start (.start hArguments)
        (.start hConstructor hVerified.initial hArguments)
    rcases hTranslation.runs hStart hRuns with ⟨output, hOutputRuns, hMatched⟩
    rw [hOutput]
    rw [hOutput] at hOutputRuns
    refine ⟨output, hOutputRuns, ?_⟩
    cases hMatched with
    | running => exact .running _ _ _ _ _ _
    | returned hSame => exact .returned hSame

end Method

-- A world of amounts

namespace Amounts

/- The objects: amounts of money other than zero, and constants. -/
inductive Thing where
  | amount (identity : Nat) (number : Int) (hNonzero : number ≠ 0)
  | literal (value : Constant)

/- The amounts are of the value class, and everything is an object. -/
def isInstance : Thing → RefType → Prop
  | .amount .., type =>
    type = .object Batch.moneyName ∨ type = .object .object
  | .literal value, type =>
    value.frameType = .object type ∨ type = .object .object

def number : Thing → Int
  | .amount _ number _ => number
  | .literal _ => 0

def unboxed (reference : Option Thing) : Int :=
  reference.elim 0 number

def boxed (number : Int) : Option Thing :=
  if hNonzero : number ≠ 0 then some (.amount 0 number hNonzero) else none

/- What the methods of the value class return. -/
inductive Call : MethodRef → List (Datum Thing) → Datum Thing → Prop where
  | unbox (reference : Option Thing) :
      Call Batch.moneyClass.unbox [.ref reference] (.long (unboxed reference))
  | box (number : Int) :
      Call Batch.moneyClass.box [.long number] (.ref (boxed number))
  | isNull (number : Int) :
      Call Batch.moneyClass.isNull [.long number]
        (.int (if number = 0 then 1 else 0))

/- The constants of the wide integers. -/
def compute (op : Plain) (_ : List (Datum Thing)) : Option (List (Datum Thing)) :=
  match op with
  | .lconst0 => some [.long 0]
  | .lconst1 => some [.long 1]
  | _ => none

/- A world whose values are amounts, with the payload zero for null. -/
abbrev world : World where
  Object := Thing
  isInstance := isInstance
  compute := compute
  literal := .literal
  call := Call
  payload := fun _ => number
  compute_kinds := by
    intro op operands results hCompute
    cases op <;> cases hCompute <;> rfl
  compute_lconst0 := rfl
  compute_lconst1 := rfl
  literal_isInstance := fun _ _ hType => .inl hType

theorem amount_of_isInstance {thing : Thing}
    (hInstance : isInstance thing (.object Batch.moneyName)) :
    ∃ identity number hNonzero, thing = .amount identity number hNonzero := by
  cases thing with
  | amount identity number hNonzero => exact ⟨identity, number, hNonzero, rfl⟩
  | literal value =>
    have hObject : RefType.object Batch.moneyName ≠ .object .object := by decide
    have hType : value.frameType ≠ .object (.object Batch.moneyName) := by
      cases value <;> simp [Constant.frameType] <;> decide
    rcases hInstance with hLiteral | hClass
    · exact absurd hLiteral hType
    · exact absurd hClass hObject

theorem payloadOf_eq (reference : Option Thing) :
    world.payloadOf Batch.moneyClass reference = unboxed reference := by
  cases reference <;> rfl

theorem unboxed_eq_zero {reference : Option Thing}
    (hFits : world.Fits (.object Batch.moneyName) reference) :
    unboxed reference = 0 ↔ reference = none := by
  cases reference with
  | none => simp [unboxed]
  | some thing =>
    rcases amount_of_isInstance (hFits thing rfl) with ⟨_, number, hNonzero, rfl⟩
    simpa [unboxed, Amounts.number] using hNonzero

/- Boxing gives a value with the number as its payload, or null. -/
theorem unboxed_boxed (number : Int) : unboxed (boxed number) = number := by
  by_cases hZero : number = 0
  · subst hZero
    rfl
  · simp [boxed, hZero, unboxed, Amounts.number]

theorem fits_boxed (number : Int) :
    world.Fits (.object Batch.moneyName) (boxed number) := by
  intro thing hThing
  unfold boxed at hThing
  split at hThing
  · cases hThing
    exact .inl rfl
  · cases hThing

theorem class?_eq {cls : ClassIndex} {info : ValueClass}
    (hClass : Method.moneyRegistry.class? cls = some info) :
    info = Batch.moneyClass := by
  cases cls with
  | wildcard => cases hClass
  | declared index => exact mem_singleton.mp (mem_of_getElem? hClass)

theorem helpers : world.Helpers Method.moneyRegistry where
  unbox := by
    intro cls info reference hClass _
    rw [class?_eq hClass, payloadOf_eq]
    exact .unbox reference
  box := by
    intro cls info reference hClass hFits
    rw [class?_eq hClass] at hFits ⊢
    refine ⟨boxed (unboxed reference), ⟨hFits, fits_boxed _, ?_⟩, ?_⟩
    · rw [payloadOf_eq, payloadOf_eq, unboxed_boxed]
    · rw [payloadOf_eq]
      exact .box _
  isNull := by
    intro cls info reference hClass hFits
    rw [class?_eq hClass] at hFits ⊢
    rw [payloadOf_eq]
    refine ⟨_, ?_, .isNull _⟩
    rw [← unboxed_eq_zero hFits]
    split <;> simp_all
  notNull := by
    intro cls info thing hClass hInstance
    rw [class?_eq hClass] at hInstance ⊢
    rcases amount_of_isInstance hInstance with ⟨_, number, hNonzero, rfl⟩
    exact hNonzero
  apart := by
    intro first second infoFirst infoSecond thing hFirst hSecond _ _
    rw [class?_eq hFirst, class?_eq hSecond]

/- Types are assignable to themselves, and null to all references. -/
def assignable (found declared : FrameType) : Bool :=
  found == declared ||
    match found, declared with
    | .null, .object _ => true
    | _, _ => false

theorem sound : world.Sound assignable := by
  intro found declared value hAssignable hType
  rcases Bool.or_eq_true_iff.mp hAssignable with hSame | hNull
  · rw [← beq_iff_eq.mp hSame]
    exact hType
  · split at hNull
    · cases hType
      exact .object fun _ hObject => nomatch hObject
    · cases hNull

end Amounts

-- A payload that goes round a loop

namespace Method

def retryStart : Label := ⟨0⟩

def retryEnd : Label := ⟨1⟩

/-
  A body that returns its first parameter, or the second one if
  the first is null: a local goes from one to the other in a loop.
-/
def retryBody : Body where
  maxStack := 1
  maxLocals := 3
  nodes :=
    [ .insn (.load .reference 0), .insn (.store .reference 2),
      .label retryStart, .frame (.append [.object (.object Batch.moneyName)]),
      .insn (.load .reference 2), .branch (.ifNull .ne retryEnd),
      .insn (.load .reference 1), .insn (.store .reference 2), .branch (.goto retryStart),
      .label retryEnd, .frame .same, .insn (.load .reference 2), .branch (.ret (some .reference)) ]
  vars := []
  handlers := []

def retryMethod : Method :=
  ⟨⟨"retry", by decide⟩,
    ⟨[.object Batch.moneyName, .object Batch.moneyName], some (.object Batch.moneyName)⟩,
    8, some retryBody⟩

theorem retryMethod_verified :
    retryMethod.Verified Amounts.assignable accountLayout.name retryBody where
  basic := by decide
  initial := by decide
  frames := by decide
  typed := by decide

def five : Amounts.Thing := .amount 1 5 (by decide)

/- With null and an amount the loop is left in its second round. -/
theorem retryBody_runs :
    Amounts.world.Runs retryBody.nodes
      (Amounts.world.start retryBody.nodes [.ref none, .ref (some five)])
      [none, some retryStart, some retryEnd] (.returned (some (.ref (some five)))) := by
  have hLoad {slot : Nat} {reference : Option Amounts.Thing}
      {rest : List Node} {stack : List Amounts.world.Val}
      {locals : Locals Amounts.Thing} (hValue : locals slot = some (.ref reference)) :
      Amounts.world.Step retryBody.nodes
        (.running (.insn (.load .reference slot) :: rest) stack locals) []
        (.running rest (.ref reference :: stack) locals) :=
    .insn (.load hValue stack) rest
  have hStore {slot : Nat} {reference : Option Amounts.Thing}
      {rest : List Node} {stack : List Amounts.world.Val}
      {locals : Locals Amounts.Thing} :
      Amounts.world.Step retryBody.nodes
        (.running (.insn (.store .reference slot) :: rest) (.ref reference :: stack)
          locals) []
        (.running rest stack (locals.store slot (.ref reference))) :=
    .insn (.store slot (.ref reference) stack locals) rest
  -- The first parameter is stored.
  refine .quiet (hLoad rfl) ?_
  refine .quiet hStore ?_
  -- The first round finds null.
  refine .quiet (.mark rfl _ _ _) (.quiet (.mark rfl _ _ _) ?_)
  refine .quiet (hLoad rfl) ?_
  refine .turn (.fall rfl _ _) ?_
  refine .quiet (hLoad rfl) ?_
  refine .quiet hStore ?_
  refine .turn (.jump rfl rfl _ _) ?_
  -- The second round finds the second parameter.
  refine .quiet (.mark rfl _ _ _) ?_
  refine .quiet (hLoad rfl) ?_
  refine .turn (.jump rfl rfl _ _) ?_
  refine .quiet (.mark rfl _ _ _) ?_
  refine .quiet (hLoad rfl) ?_
  exact .quiet (@World.Step.ret Amounts.world _ (.ref (some five)) _ _ _) (.refl _)

/-
  A run that goes round a loop with the payload of a local: null
  at first, and at last what is boxed again and returned.
-/
theorem unboxed_runs_match_retry :
    ∃ unboxed output,
      retryMethod.unbox moneyRegistry ⟨[], false⟩ accountLayout retryBody = .ok unboxed ∧
        unboxed.body.nodes ≠ retryBody.nodes ∧ Amounts.world.Runs unboxed.body.nodes
          (Amounts.world.start unboxed.body.nodes [.ref none, .ref (some five)])
          [none, some retryStart, some retryEnd] output ∧
        World.Config.Agrees moneyRegistry (.returned (some (.ref (some five)))) output := by
  have hAny : (retryMethod.unbox moneyRegistry ⟨[], false⟩ accountLayout
      retryBody).toOption.any
        (fun unboxed => decide (unboxed.body.nodes ≠ retryBody.nodes)) = true := by
    decide +kernel
  rcases ok_of_any hAny with ⟨unboxed, hUnbox, hChanged⟩
  have hArguments : Forall₂ Amounts.world.HasType [.ref none, .ref (some five)]
      (retryMethod.initialFrame accountLayout.name).locals.elements :=
    .cons (.object fun _ hNull => nomatch hNull)
      (.cons (.object fun _ hFive => Option.some.inj hFive ▸ .inl rfl) .nil)
  rcases unboxed_runs_match Amounts.helpers Amounts.sound rfl rfl retryMethod_verified
    hUnbox hArguments retryBody_runs with ⟨output, hRuns, hAgrees⟩
  exact ⟨unboxed, output, hUnbox, of_decide_eq_true hChanged, hRuns, hAgrees⟩

end Method

end Unboxing
