import Unboxing.Proofs.InstructionExecution
import Unboxing.Proofs.OutputBlocks

/-
  Branches and labels and what becomes of them do the same. The
  code before a branch turns stack and locals into what all its
  targets expect, and then the branch goes the same way as
  before. A method returns the value that it returned, or
  another box of the same payload.

  Main declarations:
    * `World.Stacked.decide?`
    * `Simulation.Agrees.mirrored`
    * `Simulation.Departs.exec`
    * `Simulation.Landing.exec`
    * `World.SameResult`
    * `Simulation.Leaves.exec`
-/

namespace Unboxing

open List Simulation SlotMap

variable {world : World} {reg : Registry} {values : List world.Val}
variable {value image : world.Val} {tag : Tag} {code : List Instruction}

-- Decisions

/- A flag that is set for null is tested the other way round. -/
theorem RefTest.holds_negate (test : RefTest) {flag : Int} {isNull : Bool}
    (hFlag : flag ≠ 0 ↔ isNull = true) :
    test.negate.toIntTest.holds flag 0 = test.holdsOf isNull := by
  cases test with
  | eq =>
    change (flag != 0) = isNull
    rw [Bool.eq_iff_iff, bne_iff_ne]
    exact hFlag
  | ne =>
    change (flag == 0) = !isNull
    rw [Bool.eq_iff_iff, beq_iff_eq, Bool.not_eq_true', ← Bool.not_eq_true, ← hFlag, not_not]

theorem Branch.decide?_ifNull
    {Object : Type} {test : RefTest} {goal : Label} {stack rest : List (Datum Object)}
    {target : Option Label}
    (hDecide : (Branch.ifNull test goal).decide? stack = some (target, rest)) :
    ∃ reference, stack = .ref reference :: rest ∧
      target = jumpIf (test.holdsOf reference.isNone) goal := by
  cases stack with
  | nil => cases hDecide
  | cons value stack =>
    cases value with
    | ref reference =>
      cases hDecide
      exact ⟨reference, rfl, rfl⟩
    | _ => cases hDecide

namespace World

variable {world : World} {reg : Registry}

/- A reference that is not unboxed stays one with the same meaning. -/
theorem Represents.alike_of_ref
    {tag : Tag} {reference : Option world.Object} {image : world.Val}
    (hImage : world.Represents reg tag (.ref reference) image)
    (hPayload : tag.isPayload = false) :
    ∃ target, image = .ref target ∧ world.Alike reg reference target := by
  cases hImage with
  | primitive hKind => exact absurd rfl hKind
  | payload => cases hPayload
  | reference hClass hSame => exact ⟨_, rfl, .inr ⟨_, _, hClass, hSame⟩⟩
  | null => exact ⟨_, rfl, .inl rfl⟩
  | other hTag hAlike => exact ⟨_, rfl, hAlike⟩

theorem Alike.isNone_eq {left right : Option world.Object}
    (hHelpers : world.Helpers reg) (hAlike : world.Alike reg left right) :
    left.isNone = right.isNone := by
  rw [Bool.eq_iff_iff, Option.isNone_iff_eq_none, Option.isNone_iff_eq_none]
  exact hAlike.eq_none_iff hHelpers

/- A branch that looks at no payload goes the same way. -/
theorem Stacked.decide?
    {b : Branch} {tags : List Tag} {values rest mirrors : List world.Val}
    {target : Option Label} (hHelpers : world.Helpers reg)
    (hStacked : world.Stacked reg tags values mirrors)
    (hNull : ∀ test l, b = .ifNull test l → (tags[0]?.getD Tag.void).isPayload = false)
    (hDecide : b.decide? values = some (target, rest)) :
    b.decide? mirrors = some (target, mirrors.drop b.takes.length) := by
  unfold Branch.decide? at hDecide
  split at hDecide
  · cases hDecide
    cases hStacked with
    | cons hTop hRest =>
      rw [hTop.eq_of_primitive nofun]
      rfl
  · cases hDecide
    cases hStacked with
    | cons hRight hRest =>
      cases hRest with
      | cons hLeft hBelow =>
        rw [hRight.eq_of_primitive nofun, hLeft.eq_of_primitive nofun]
        rfl
  · cases hDecide
    cases hStacked with
    | cons hTop hRest =>
      rcases hTop.alike_of_ref (hNull _ _ rfl) with ⟨image, rfl, hAlike⟩
      rw [Branch.decide?, ← hAlike.isNone_eq hHelpers]
      rfl
  · cases hDecide
    rfl
  · cases hDecide
    cases hStacked with
    | cons hTop hRest =>
      rw [hTop.eq_of_primitive nofun]
      rfl
  · cases hDecide
    cases hStacked with
    | cons hTop hRest =>
      rw [hTop.eq_of_primitive nofun]
      rfl
  · cases hDecide

end World

-- Values at labels

/- Values of well-formed types belong where tags that suit these are expected. -/
theorem World.Belongs.forall₂ {types : List FrameType} {tags : List Tag}
    (hTypes : Forall₂ world.HasType values types)
    (hWellFormed : ∀ type ∈ types, type.isWellFormed = true)
    (hSuits : Forall₂ (fun type tag => (reg.tagOfFrame type).Suits tag)
      types tags) :
    Forall₂ (world.Belongs reg) tags values := by
  induction hTypes generalizing tags with
  | nil =>
    cases hSuits
    exact .nil
  | cons hType _ ih =>
    cases hSuits with
    | cons hFirst hRest =>
      refine .cons (.of_hasType hType ?_ hFirst) (ih ?_ hRest)
      · exact hWellFormed _ (mem_cons_self ..)
      · exact (forall_mem_cons.mp hWellFormed).2

/- A slot has a tag at a label exactly if the frame there gives it a type. -/
theorem declaredTag_isVoid (reg : Registry) (frame : Frame) (slot : Nat) :
    (declaredTag reg frame.locals slot).isVoid = true ↔
      (Typing.ofFrame frame).locals slot = .top := by
  simp only [declaredTag, Typing.ofFrame]
  cases frame.locals.startingAt? slot with
  | none => exact ⟨fun _ => rfl, fun _ => rfl⟩
  | some type =>
    constructor
    · exact Registry.tagOfFrame_void
    · intro hTop
      change type = .top at hTop
      rw [hTop]
      rfl

/- A slot with a type at a label had one before. -/
theorem Typing.live_of_fits
    {assignable : FrameType → FrameType → Bool} {frame : Frame} {slot : Nat}
    (typing : Typing) (hSound : world.Sound assignable)
    (hFits : typing.fits assignable frame = true)
    (hLive : (Typing.ofFrame frame).locals slot ≠ .top) :
    typing.locals slot ≠ .top := by
  simp only [Typing.ofFrame] at hLive
  cases hStart : frame.locals.startingAt? slot with
  | none =>
    rw [hStart] at hLive
    exact absurd rfl hLive
  | some declared =>
    rw [hStart] at hLive
    exact hSound.ne_top (typing.assignable_of_fits hFits hStart) hLive

namespace Join.Suits

variable {world : World} {reg : Registry} {frame : Frame} {join : Join}
variable {entry : Nat × Tag} {values : List world.Val}
variable {locals : Locals world.Object}
variable (hSuits : join.Suits reg frame)
include hSuits

theorem mem_vars_iff (slot : Nat) :
    (slot, tagIn join.locals.cells slot) ∈ join.locals.vars ↔
      (Typing.ofFrame frame).locals slot ≠ .top := by
  change (slot, tagIn join.locals.cells slot) ∈ varsOf join.locals.cells ↔ _
  rw [mem_varsOf, (hSuits.locals slot).isVoid_eq, ← Bool.not_eq_true, declaredTag_isVoid]
  simp

/- The slots of a label had types before. -/
theorem live {assignable : FrameType → FrameType → Bool} {typing : Typing}
    (hSound : world.Sound assignable) (hFits : typing.fits assignable frame = true)
    (hEntry : entry ∈ join.locals.vars) :
    typing.locals entry.1 ≠ .top := by
  rcases entry with ⟨slot, tag⟩
  rcases mem_varsOf.mp hEntry with ⟨rfl, _⟩
  exact typing.live_of_fits hSound hFits ((hSuits.mem_vars_iff slot).mp hEntry)

section

variable (hFrame : frame.isWellFormed = true) (hTyped : world.Typed (.ofFrame frame) values locals)
include hFrame hTyped

/- Values of the types of a frame belong where what is agreed is expected. -/
theorem stack_belongs (hSize : values.length = join.stack.size) :
    Forall₂ (world.Belongs reg) (join.stack.entries.map Entry.tag)
      values := by
  have hTypes : Forall₂ world.HasType values frame.stack.reverse := hTyped.stack
  have hLength : frame.stack.length = join.stack.size := by
    rw [← hSize, hTypes.length_eq, length_reverse]
  apply World.Belongs.forall₂ hTypes _ (hSuits.stack hLength)
  intro type hType
  rw [Frame.isWellFormed, all_append, Bool.and_eq_true] at hFrame
  exact all_eq_true.mp hFrame.2 type (mem_reverse.mp hType)

theorem local_belongs (hEntry : entry ∈ join.locals.vars) {value : world.Val}
    (hValue : locals entry.1 = some value) : world.Belongs reg entry.2 value := by
  rcases entry with ⟨slot, tag⟩
  rcases mem_varsOf.mp hEntry with ⟨rfl, _⟩
  have hTop := (hSuits.mem_vars_iff slot).mp hEntry
  rcases hTyped.locals slot hTop with ⟨same, hSame, hType⟩
  rw [hValue] at hSame
  cases hSame
  have hTag := hSuits.locals slot
  unfold declaredTag at hTag
  simp only [Typing.ofFrame] at hTop hType
  cases hStart : frame.locals.startingAt? slot with
  | none =>
    rw [hStart] at hTop
    exact absurd rfl hTop
  | some type =>
    rw [hStart] at hTag hType
    exact .of_hasType hType (Frame.isWellFormed_local hFrame hStart) hTag

end

end Join.Suits

namespace Simulation

variable {world : World} {ctx : Context} {plan : Array Nat} {operands : Nat}
variable {before turned after st : State} {typing : Typing}
variable {values mirrors : List world.Val} {locals mirror : Locals world.Object}
variable {label : Label} {found : Join} {joined readied : State}
variable {assignable : FrameType → FrameType → Bool} {frame : Frame}
variable {labels : List Label} {b other : Branch} {rest : List world.Val}
variable {target : Option Label} {verifier : Verifier}

/- Only stacks of the same height are made to agree. -/
theorem Reconciled.size_eq
    (hReconciled :
      Reconciled ctx plan label operands found before joined turned after) :
    before.stack.entries.length = found.stack.size + operands := by
  rcases hReconciled.stack with ⟨tops, entries, code, rfl, hStack⟩
  have hEntries : joined.bench.entries = before.stack.entries :=
    congrArg Bench.entries (join_ok hReconciled.joins).2.2.1
  have hLength := hStack.casts.length_eq
  rw [StackSnapshot.tags, length_reverse, length_map] at hLength
  rw [← hEntries, hStack.entries_eq, length_append, length_reverse, hLength, Nat.add_comm]
  rfl

/-
  The code that makes a path agree with a label, if stack and
  locals have types that fit the frame there.
-/
theorem Reconciled.exec_typed (hHelpers : world.Helpers ctx.reg)
    (hSound : world.Sound assignable)
    (hReconciled :
      Reconciled ctx plan label operands found before joined turned after)
    (hSuits : found.Suits ctx.reg frame)
    (hFrame : frame.isWellFormed = true)
    (hFits : typing.fits assignable frame = true)
    (hTyped : world.Typed typing (values.drop operands) locals)
    (hStacked : world.Stacked ctx.reg
      (before.stack.entries.map Entry.tag) values mirrors)
    (hShown : world.Shown ctx.reg plan (typing.locals · ≠ .top)
      before.locals.tagAt locals mirror) :
    ∃ code afterMirrors afterMirror, after.edit = before.edit.emit code ∧
        world.ExecAll code mirrors mirror afterMirrors afterMirror ∧
          world.Stacked ctx.reg (after.stack.entries.map Entry.tag)
            values afterMirrors ∧ world.Shown ctx.reg plan (typing.locals · ≠ .top)
              after.locals.tagAt locals afterMirror := by
  have hFrameTyped := hTyped.fits hSound hFits
  apply hReconciled.exec hHelpers hStacked hShown
  · apply hSuits.stack_belongs hFrame hFrameTyped
    rw [length_drop, hStacked.length_eq.1, length_map, hReconciled.size_eq,
      Nat.add_sub_cancel]
  · intro entry hEntry
    exact hSuits.live hSound hFits hEntry
  · intro entry hEntry value hValue
    exact hSuits.local_belongs hFrame hFrameTyped hEntry hValue

/-
  What agrees with a label below some operands can be used with
  what is agreed there.
-/
theorem Agrees.mirrored {join : Join} {live : Nat → Prop} {map : SlotMap}
    (hAgrees : Agrees turned operands join) (hSuits : join.Suits ctx.reg frame)
    (hLive : ∀ slot, (Typing.ofFrame frame).locals slot ≠ .top → live slot)
    (hStacked : world.Stacked ctx.reg
      ((turned.stack.entries.drop operands).map Entry.tag) values mirrors)
    (hShown : world.Shown ctx.reg plan live turned.locals.tagAt locals mirror)
    (hCells : map.cells = join.locals.cells) :
    world.Mirrored ctx.reg plan (.ofFrame frame) join.stack.entries map values
      locals mirrors mirror := by
  constructor
  · rw [← hAgrees.tags]
    exact hStacked
  · intro slot hSlot
    have hVar := (hSuits.mem_vars_iff slot).mpr hSlot
    rcases hShown slot (hLive slot hSlot) with ⟨value, image, hValue, hImage, hShows⟩
    refine ⟨value, image, hValue, hImage, ?_⟩
    have hTag : turned.locals.tagAt slot = map.tagAt slot := by
      rw [tagAt_eq map, hCells]
      exact (hAgrees.vars _ hVar).1
    rw [← hTag]
    exact hShows

-- Branches

theorem Visits.exec (hHelpers : world.Helpers ctx.reg)
    (hSound : world.Sound assignable) (hProper : ctx.frames.Proper)
    (hVisits : Visits ctx plan operands labels before after)
    (hFitting : Fitting ctx before) (hPlaced : before.Placed plan)
    (hFits : ∀ l ∈ labels, ∃ frame, ctx.frames.frame? l = some frame ∧
      typing.fits assignable frame = true)
    (hTyped : world.Typed typing (values.drop operands) locals)
    (hStacked : world.Stacked ctx.reg
      (before.stack.entries.map Entry.tag) values mirrors)
    (hShown : world.Shown ctx.reg plan (typing.locals · ≠ .top)
      before.locals.tagAt locals mirror) :
    ∃ code afterMirrors afterMirror, after.edit = before.edit.emit code ∧
        world.ExecAll code mirrors mirror afterMirrors afterMirror ∧
          world.Stacked ctx.reg (after.stack.entries.map Entry.tag)
            values afterMirrors ∧ world.Shown ctx.reg plan (typing.locals · ≠ .top)
              after.locals.tagAt locals afterMirror := by
  induction hVisits generalizing mirrors mirror with
  | nil =>
    exact ⟨[], mirrors, mirror, (Edit.emit_nil _).symm, .nil _ _, hStacked, hShown⟩
  | cons hReconciled hSettled _ ih =>
    rcases hFits _ (mem_cons_self ..) with ⟨frame, hFrame, hFirstFits⟩
    rcases hFitting.reconciled hProper hPlaced hFrame hReconciled hSettled with
      ⟨hSuits, hBetween⟩
    rcases hReconciled.exec_typed hHelpers hSound hSuits (hProper _ _ hFrame).1
      hFirstFits hTyped hStacked hShown with
      ⟨first, midMirrors, midMirror, hFirstEdit, hFirst, hMidStacked, hMidShown⟩
    rcases ih hBetween hReconciled.placed (forall_mem_cons.mp hFits).2 hMidStacked
      hMidShown with
      ⟨rest, lastMirrors, lastMirror, hRestEdit, hRest, hLastStacked, hLastShown⟩
    refine ⟨first ++ rest, lastMirrors, lastMirror, ?_, hFirst.append hRest,
      hLastStacked, hLastShown⟩
    rw [hRestEdit, hFirstEdit, Edit.emit_emit]

theorem Visits.take_eq (hVisits : Visits ctx plan operands labels before after) :
    after.stack.entries.take operands = before.stack.entries.take operands := by
  induction hVisits with
  | nil => rfl
  | cons hReconciled _ _ ih => exact ih.trans hReconciled.agrees.2

/- What stands in the place of a branch. -/
def Stands (b other : Branch) (edit : Edit) : Prop :=
  edit.fate = .kept ∧ other = b ∨ edit.fate = .replaced (.branch other)

/-
  Code before a branch after which another branch goes the same
  way, with other operands if need be.
-/
structure Directed (world : World) (reg : Registry) (b other : Branch)
    (st readied : State) (code : List Instruction)
    (mirrors flagged images : List world.Val) (mirror : Locals world.Object)
    (target : Option Label) (rest : List world.Val) : Prop where
  before : readied.edit.before = st.edit.before ++ code
  stands : Stands b other readied.edit
  exec : world.ExecAll code mirrors mirror images mirror
  stacked : world.Stacked reg (readied.stack.entries.map Entry.tag) flagged
    images
  decides : other.decide? flagged = some (target, rest)
  takes : other.takes.length = b.takes.length
  locals : readied.locals = st.locals
  boxed : ∀ test l, other = .ifNull test l → (readied.bench.tagAt 0).isPayload = false

/- A payload is asked whether it stands for null. -/
theorem Readied.directed (hHelpers : world.Helpers ctx.reg)
    (hReadied : Readied ctx.reg b other st readied)
    (hKept : st.edit.fate = .kept)
    (hStacked : world.Stacked ctx.reg
      (st.stack.entries.map Entry.tag) values mirrors)
    (hDecide : b.decide? values = some (target, rest))
    (mirror : Locals world.Object) :
    ∃ code flagged images, Directed world ctx.reg b other st readied code
      mirrors flagged images mirror target rest := by
  cases hReadied with
  | keep hNull =>
    exact ⟨[], values, mirrors, (append_nil _).symm, .inl ⟨hKept, rfl⟩,
      .nil _ _, hStacked, hDecide, rfl, rfl, hNull⟩
  | flag goal hPayload hClass hHeld hBench =>
    rename_i test info
    have hEntries : readied.stack.entries =
        ⟨.int, none⟩ :: st.stack.entries.tail := congrArg Bench.entries hBench
    have hEdit := congrArg Bench.edit hBench
    rcases Branch.decide?_ifNull hDecide with ⟨reference, rfl, rfl⟩
    cases hFound : st.stack.entries with
    | nil =>
      rw [hFound] at hStacked
      cases hStacked
    | cons entry entries =>
      have hTag : st.bench.tagAt 0 = entry.tag := by
        simp [Bench.tagAt, State.bench, hFound]
      rw [hTag] at hPayload hClass
      rw [hFound] at hStacked hEntries
      cases hStacked with
      | cons hTop hRest =>
        rename_i image images
        rcases hTop.of_payloadKind (Bool.and_eq_true_iff.mp hPayload).1 with
          ⟨cls, same, other, hEntry, hSame, hFits, hValue, rfl⟩
        cases hValue
        rw [hEntry] at hClass
        cases hSame.symm.trans hClass
        rcases hHelpers.isNull cls info reference hSame hFits with
          ⟨flag, hFlag, hCall⟩
        have hDecides := test.holds_negate
          (hFlag.trans Option.isNone_iff_eq_none.symm)
        refine ⟨[.invoke .static info.isNull], .int flag :: rest,
          .int flag :: images, congrArg Edit.before hEdit, .inr (congrArg Edit.fate hEdit),
          (World.Exec.invoke hCall images mirror).all, ?_, ?_, rfl,
          congrArg Bench.locals hBench, fun _ _ hNull => by cases hNull⟩
        · rw [hEntries]
          exact .cons (.int flag) hRest
        · rw [Branch.decide?, hDecides]

/-
  Code before a branch after which what stands in its place goes
  the same way, with stack and locals as at all its targets.
-/
structure Departure (world : World) (reg : Registry) (plan : Array Nat)
    (b other : Branch) (typing : Typing) (st turned after : State)
    (code : List Instruction) (mirrors images : List world.Val)
    (locals mirror lastMirror : Locals world.Object) (target : Option Label)
    (rest : List world.Val) : Prop where
  before : after.edit.before = st.edit.before ++ code
  stands : Stands b other after.edit
  exec : world.ExecAll code mirrors mirror images lastMirror
  decides : other.decide? images = some (target, images.drop b.takes.length)
  stacked : world.Stacked reg
    ((turned.stack.entries.drop b.takes.length).map Entry.tag) rest
    (images.drop b.takes.length)
  shown : world.Shown reg plan (typing.locals · ≠ .top) turned.locals.tagAt
    locals lastMirror

section

variable (hHelpers : world.Helpers ctx.reg)
variable (hSound : world.Sound verifier.assignable)
variable (hChecks : Checks verifier ctx)
include hHelpers hSound hChecks

theorem Departs.exec {popped : Typing}
    (hDeparts : Departs ctx plan b other st readied turned after)
    (hKept : st.edit.fate = .kept) (hFitting : Fitting ctx st)
    (hPassed : verifier.Passed typing popped b)
    (hTyped : world.Typed typing values locals)
    (hMirrored : world.Mirrored ctx.reg plan typing st.stack.entries
      st.locals values locals mirrors mirror)
    (hDecide : b.decide? values = some (target, rest)) :
    ∃ code images lastMirror, Departure world ctx.reg plan b other popped
      st turned after code mirrors images locals mirror lastMirror target rest := by
  rcases hDeparts.ready.directed hHelpers hKept hMirrored.stack hDecide mirror with
    ⟨flagCode, flagged, flaggedImages, hDirected⟩
  have hRest : rest = flagged.drop b.takes.length := by
    rw [← hDirected.takes]
    exact (Branch.decide?_ok hDirected.decides).1
  have hPopped : world.Typed popped (flagged.drop b.takes.length) locals := by
    rw [← hRest, (Branch.decide?_ok hDecide).1]
    exact hTyped.pop hPassed.operands
  have hShown : world.Shown ctx.reg plan (popped.locals · ≠ .top)
      readied.locals.tagAt locals mirror := by
    rw [hDirected.locals, Typing.eq_of_pop? hPassed.operands]
    exact hMirrored.locals
  have hFits : ∀ l ∈ b.targets, ∃ frame, ctx.frames.frame? l = some frame ∧
      popped.fits verifier.assignable frame = true := by
    intro l hLabel
    rw [← hChecks.frames]
    exact hPassed.labels l (mem_eraseDups.mp hLabel)
  rcases hDeparts.visits.exec hHelpers hSound hChecks.proper
    (hFitting.readied hDeparts.ready) hDeparts.placed hFits hPopped hDirected.stacked
    hShown with ⟨code, images, lastMirror, hEdit, hExec, hStacked, hLastShown⟩
  have hLast : after.edit = turned.edit := congrArg Bench.edit hDeparts.bench
  refine ⟨flagCode ++ code, images, lastMirror, ?_, ?_, hDirected.exec.append hExec,
    ?_, ?_, hLastShown⟩
  · rw [hLast, hEdit, ← append_assoc, ← hDirected.before, Edit.before_emit]
  · rw [hLast, hEdit, Stands, Edit.fate_emit]
    exact hDirected.stands
  · rw [← hDirected.takes]
    apply hStacked.decide? hHelpers _ hDirected.decides
    rintro test l rfl
    have hFirst : turned.stack.entries.take 1 = readied.stack.entries.take 1 := by
      have hTake := hDeparts.visits.take_eq
      rwa [← hDirected.takes] at hTake
    have hTop := congrArg (fun entries => (entries[0]?.map Entry.tag).getD Tag.void)
      hFirst
    simp only [getElem?_take_of_lt Nat.zero_lt_one] at hTop
    rw [getElem?_map, hTop]
    exact hDirected.boxed test l rfl
  · rw [map_drop, hRest]
    exact hStacked.drop _

-- Labels

/- Code that control runs into a label with leaves what is agreed there. -/
theorem Landing.exec {next : Option Typing} {l : Label}
    (hLanding : Landing ctx plan l st after) (hPlaced : st.Placed plan)
    (hTracked : Tracked ctx (some typing) st)
    (hVerified : verifier.step (some typing) (.label l) = some next)
    (hTyped : world.Typed typing values locals)
    (hMirrored : world.Mirrored ctx.reg plan typing st.stack.entries
      st.locals values locals mirrors mirror) :
    ∃ typed code images lastMirror, next = some typed ∧ after.edit = st.edit.emit code ∧
        world.ExecAll code mirrors mirror images lastMirror ∧ world.Typed typed values locals ∧
            world.Mirrored ctx.reg plan typed after.stack.entries
              after.locals values locals images lastMirror := by
  have hReach : st.reachable = true := hTracked.reachable
  cases hLanding with
  | pass hKnown hFrame hTarget hHeld hBench =>
    rcases Verifier.step_label_free (hChecks.frames ▸ hFrame) hVerified with
      ⟨rfl, _⟩
    have hEntries : after.stack.entries = st.stack.entries :=
      congrArg Bench.entries hBench
    have hLocals : after.locals = st.locals := congrArg Bench.locals hBench
    have hEdit : after.edit = st.edit := congrArg Bench.edit hBench
    refine ⟨typing, [], mirrors, mirror, rfl, ?_, .nil _ _, hTyped, ?_⟩
    · rw [Edit.emit_nil, hEdit]
    · rw [hEntries, hLocals]
      exact hMirrored
  | arrive hReachable hMeant hHeld hBench hReconciled hSettled hResumed =>
    rename_i found first joined between turned
    rcases hTracked.frame_of_meant hChecks hVerified hMeant with ⟨frame, hFrame⟩
    rcases Verifier.step_label_frame (hChecks.frames ▸ hFrame) hVerified with
      ⟨rfl, hFits⟩
    have hFirst := hTracked.fitting.of_held hHeld hBench
    rcases hFirst.reconciled hChecks.proper (hHeld.placed hBench hPlaced) hFrame
      hReconciled hSettled with ⟨hSuits, _⟩
    have hEntries : first.stack.entries = st.stack.entries :=
      congrArg Bench.entries hBench
    have hLocals : first.locals = st.locals := congrArg Bench.locals hBench
    have hEdit : first.edit = st.edit := congrArg Bench.edit hBench
    rw [← hEntries, ← hLocals] at hMirrored
    rcases hReconciled.exec_typed hHelpers hSound hSuits
      (hChecks.proper l frame hFrame).1 hFits hTyped hMirrored.stack
      hMirrored.locals with
      ⟨code, images, lastMirror, hCode, hExec, hStacked, hShown⟩
    refine ⟨.ofFrame frame, code, images, lastMirror, rfl, ?_, hExec, hTyped.fits hSound hFits, ?_⟩
    · rw [hResumed.edit, hCode, hEdit]
    · rw [hResumed.entries]
      exact hReconciled.agrees.1.mirrored hSuits
        (fun slot hSlot => typing.live_of_fits hSound hFits hSlot) hStacked hShown
        hResumed.cells
  | resume hReachable | declare hReachable => exact absurd (hReach.symm.trans hReachable) nofun

end

end Simulation

-- Results

/-
  What a method returns before and after unboxing: the same
  primitive, the same reference, or one to a value of the same
  class with the same payload.
-/
inductive World.SameResult (world : World) (reg : Registry) :
    world.Val → world.Val → Prop where
  | primitive
      {value : world.Val}
      (hKind : value.kind ≠ .reference) :
      SameResult world reg value value
  | reference
      {left right : Option world.Object}
      (hAlike : world.Alike reg left right) :
      SameResult world reg (.ref left) (.ref right)

theorem World.SameResult.kind_eq (hSame : world.SameResult reg value image) :
    image.kind = value.kind := by
  cases hSame with
  | primitive | reference => rfl

/- A payload is cast to nothing but its own class, if that is settled. -/
theorem Tag.class?_of_cast_payload {cls : ClassIndex} {want : Tag}
    (hValue : want.isValue = true) (hClosed : want.isWildcard = false)
    (hCast : (Tag.payload cls).cast want ≠ .failure) :
    want.class? = some cls := by
  by_contra hClass
  have hDifferent : Tag.payload cls ≠ want := by
    rintro rfl
    exact hClass rfl
  have hFound : (Tag.payload cls).isValue = true := rfl
  apply hCast
  unfold cast
  rw [if_neg hDifferent]
  split
  · rfl
  · simp only [hFound, hValue]
    unfold castValues
    split
    · rfl
    · rw [if_pos (fun hSame => hClass hSame.symm), hClosed]
      rfl

section

variable (hHelpers : world.Helpers reg) (hImage : world.Represents reg tag value image)
include hHelpers hImage

/- A payload that is boxed for a consumer is a reference with that payload. -/
theorem World.Represents.boxed {consumer : Tag} (hUnboxed : tag.isUnboxed = true)
    (hConsumer : consumer.hasPayloadKind = false) (hClosed : consumer.isWildcard = false)
    (hCast : tag.cast (boxedFor tag consumer) ≠ .failure)
    (hCode : ConversionCode reg tag (boxedFor tag consumer) code) (stack : List world.Val)
    (locals : Locals world.Object) :
    ∃ boxed, world.ExecAll code (image :: stack) locals (boxed :: stack) locals ∧
      world.SameResult reg value boxed := by
  have hKind : tag.hasPayloadKind = true := by
    rcases Bool.or_eq_true_iff.mp hUnboxed with hPayload | hArray
    · exact (Bool.and_eq_true_iff.mp hPayload).1
    · exact (Bool.and_eq_true_iff.mp hArray).1
  rcases hImage.of_payloadKind hKind with
    ⟨cls, info, reference, rfl, hClass, hFits, rfl, rfl⟩
  have hBoxed : (boxedFor (.payload cls) consumer).class? = some cls ∧
      (boxedFor (.payload cls) consumer).hasPayloadKind = false := by
    have hFor : boxedFor (.payload cls) consumer =
        if consumer.isValue then consumer else .reference cls := rfl
    rw [hFor] at hCast ⊢
    split
    · rename_i hValue
      rw [if_pos hValue] at hCast
      exact ⟨Tag.class?_of_cast_payload hValue hClosed hCast, hConsumer⟩
    · exact ⟨rfl, rfl⟩
  rcases hImage.convert hHelpers
    (.of_class hBoxed.1 (by simp [Tag.isPayloadArray, hBoxed.2]) hClass hFits) hCast
    hCode stack locals with ⟨boxed, hExec, hRepresents⟩
  rcases hRepresents.alike_of_ref (by simp [Tag.isPayload, hBoxed.2]) with
    ⟨target, rfl, hAlike⟩
  exact ⟨_, hExec, .reference hAlike⟩

/- A reference that is boxed for the result of a method, if it is a payload. -/
theorem World.Represents.returned {type : FieldType} (hReference : value.kind = .reference)
    (hCode : BoxingCode reg tag (reg.tagOf type) code) (stack : List world.Val)
    (locals : Locals world.Object) :
    ∃ result, world.ExecAll code (image :: stack) locals (result :: stack) locals ∧
      world.SameResult reg value result := by
  have hConsumer : (reg.tagOf type).hasPayloadKind = false :=
    Bool.eq_false_iff.mpr (reg.tagOf_not_payload type)
  cases hCode with
  | keep hKeep =>
    have hPayload : tag.isPayload = false := by
      by_contra hPayload
      rw [Bool.not_eq_false] at hPayload
      rw [← hKeep (by rw [Tag.isUnboxed, hPayload]; rfl)] at hConsumer
      rw [Tag.isPayload, hConsumer] at hPayload
      cases hPayload
    cases value with
    | ref reference =>
      rcases hImage.alike_of_ref hPayload with ⟨target, rfl, hAlike⟩
      exact ⟨_, .nil _ _, .reference hAlike⟩
    | _ => cases hReference
  | convert hUnboxed hCast hCode =>
    exact hImage.boxed hHelpers hUnboxed hConsumer (reg.tagOf_closed type) hCast
      hCode stack locals

end

/- What is returned has the same meaning. -/
theorem Simulation.Leaves.exec
    {ctx : Context} {st after : State} {mirrors : List world.Val}
    (hHelpers : world.Helpers ctx.reg)
    (hLeaves : Leaves ctx (some value.kind) st after)
    (hStacked : world.Stacked ctx.reg
      (st.stack.entries.map Entry.tag) (value :: values) mirrors)
    (mirror : Locals world.Object) :
    ∃ code image images, after.edit = st.edit.emit code ∧
      world.ExecAll code mirrors mirror (image :: images) mirror ∧
        world.SameResult ctx.reg value image := by
  cases hEntries : st.stack.entries with
  | nil =>
    rw [hEntries] at hStacked
    cases hStacked
  | cons entry entries =>
    rw [hEntries] at hStacked
    cases hStacked with
    | cons hTop hRest =>
      rename_i image images
      have hTag : st.bench.tagAt 0 = entry.tag := by
        simp [Bench.tagAt, State.bench, hEntries]
      generalize hSome : some value.kind = kind at hLeaves
      cases hLeaves with
      | nothing => cases hSome
      | primitive hKind hBench =>
        rw [← Option.some.inj hSome] at hKind
        have hEdit : after.edit = st.edit := congrArg Bench.edit hBench
        refine ⟨[], image, images, ?_, .nil _ _, ?_⟩
        · rw [hEdit, Edit.emit_nil]
        · rw [hTop.eq_of_primitive hKind]
          exact .primitive hKind
      | reference hType hCode hBench =>
        rename_i type code
        rw [hTag] at hCode
        have hEdit : after.edit = st.edit.emit code :=
          congrArg Bench.edit hBench
        rcases hTop.returned hHelpers (Option.some.inj hSome) hCode images mirror
          with ⟨result, hExec, hSame⟩
        exact ⟨code, result, images, hEdit, hExec, hSame⟩

end Unboxing
