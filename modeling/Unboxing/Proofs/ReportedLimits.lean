import Unboxing.Proofs.BranchCoverage
import Unboxing.Proofs.OutputBlocks

/-
  The limits that are reported with a body cover it. The peaks
  only grow while a body is gone through, so those of the last
  state cover what has become of every element. The code that
  seeds fields stands in one piece after some first elements, and
  is covered by what is reserved for it.

  Main declarations:
    * `localsEnd_seeds`
    * `Simulation.Passed`
    * `Simulation.grows_stateAfter`
    * `Simulation.seedsAt_stateAfter`
    * `Method.limits_cover_output`
    * `Method.seeding_without_receiver`
-/

namespace Unboxing

open List Sequence

-- Code in one piece

/-
  Code that is put right after the last of some first elements,
  or at the start if there are none. If there is no element at
  all, nothing is put anywhere.
-/
theorem Sequence.Shows.insertAfterLast {code : Sequence Node}
    {first rest : List (Handle × Node)} (hShows : Shows code (first ++ rest))
    (block : List Instruction) :
    ∃ seeds, (seeds = block ∨ seeds = []) ∧
      Shows (Simulation.insertAt (first.map Prod.fst).getLast? code block)
        (first ++ numbered code.links.size seeds ++ rest) := by
  rcases eq_nil_or_concat first with rfl | ⟨before, ⟨h, node⟩, rfl⟩
  · cases rest with
    | nil =>
      refine ⟨[], .inr rfl, ?_⟩
      have hFirst : code.first = none := hShows.ordered.first
      simp only [Simulation.insertAt, map_nil, getLast?_nil, hFirst]
      exact hShows
    | cons entry rest =>
      refine ⟨block, .inl rfl, ?_⟩
      have hFirst : code.first = some entry.1 := hShows.ordered.first
      simp only [Simulation.insertAt, map_nil, getLast?_nil, hFirst]
      exact hShows.insertAllBefore block
  · refine ⟨block, .inl rfl, ?_⟩
    have hLast : ((before.concat (h, node)).map Prod.fst).getLast? = some h := by
      simp
    have hSplit : Shows code (before ++ (h, node) :: rest) := by
      simpa using hShows
    rw [hLast]
    simpa [Simulation.insertAt] using hSplit.insertAllAfter block

namespace Simulation

variable {ctx : Context} {count : Nat} {st last : State}

-- The place

/- The handle that stands last in what has become of the first elements. -/
def lastHandle (ctx : Context) (count : Nat) : Option Handle :=
  (((List.range count).flatMap (blockView ctx)).map Prod.fst).getLast?

/- An element at which the place for seeding is found, while it is searched. -/
structure Finds (ctx : Context) (p : Nat) (place : Option Handle) (depth : Nat)
    (st next : State) : Prop where
  inside : p < ctx.body.nodes.length
  before : stateAfter ctx p = some st
  searching : st.seeding = .searching
  after : stateAfter ctx (p + 1) = some next
  found : next.seeding = .found place depth
  place_eq : place = lastHandle ctx p

/- A place that was found was found at some element. -/
theorem finds_stateAfter {i : Nat} {place : Option Handle} {depth : Nat}
    (hInside : i ≤ ctx.body.nodes.length) (hState : stateAfter ctx i = some st)
    (hFound : st.seeding = .found place depth) :
    ∃ p before next, Finds ctx p place depth before next := by
  refine stateAfter_induct (motive := fun _ st =>
    st.seeding = .found place depth → ∃ p before next, Finds ctx p place depth before next)
    ?_ ?_ hInside hState hFound
  · intro hFound
    change Seeding.start ctx.method ctx.layout = .found place depth at hFound
    unfold Seeding.start at hFound
    split at hFound <;> cases hFound
  · intro i node before mid hNode hBefore hVisited ih hFound
    have hMid : mid.seeding = .found place depth := hFound
    rcases hVisited.past.seeding with
      hSame | ⟨_, hSuppressed | ⟨hSearching, _, hHere⟩⟩
    · exact ih (hSame.symm.trans hMid)
    · rw [hSuppressed] at hMid
      cases hMid
    · refine ⟨i, before, _, (List.getElem?_eq_some_iff.mp hNode).1, hBefore, hSearching,
        hVisited.after, hFound, ?_⟩
      have hCode := hVisited.between.code
      rw [restView_cons hNode] at hCode
      have hOrdered : Ordered before.code
          (((List.range i).flatMap (blockView ctx)).map Prod.fst ++
            i :: (restView ctx (i + 1)).map Prod.fst) := by
        simpa using hCode.ordered
      rw [hHere] at hMid
      injection hMid with hPlace _
      exact hPlace.symm.trans hOrdered.prev?_eq

theorem range_split {length : Nat} (hCount : count ≤ length) :
    List.range length = List.range count ++ List.range' count (length - count) := by
  simpa only [range_eq_range', Nat.zero_add, Nat.add_sub_of_le hCount] using
    (@range'_append_1 0 count (length - count)).symm

/- Code that is put after some first elements, in the body that comes out. -/
theorem nodes_insertAt (hLast : stateAfter ctx ctx.body.nodes.length = some last)
    (hCount : count ≤ ctx.body.nodes.length) (block : List Instruction) :
    ∃ seeds, (seeds = block ∨ seeds = []) ∧
      (withFrames (insertAt (lastHandle ctx count) last.code block)
        last.pendingFrames).toList =
        (List.range count).flatMap (outputBlock ctx last.pendingFrames) ++
          seeds.map .insn ++ outputFrom ctx last.pendingFrames count := by
  have hBetween := between_stateAfter (Nat.le_refl _) hLast
  have hShows := hBetween.shows_blocks
  rw [range_split hCount, flatMap_append] at hShows
  rcases hShows.insertAfterLast block with ⟨seeds, hSeeds, hInserted⟩
  refine ⟨seeds, hSeeds, ?_⟩
  have hFrames : ∀ frame ∈ last.pendingFrames, frame.1 < last.code.links.size :=
    fun frame hFrame =>
      Nat.lt_of_lt_of_le (hBetween.frames frame hFrame).1
        (length_le_size (Nat.le_refl _) hLast)
  have hView := (shows_withFrames hInserted last.pendingFrames).toList_eq
  have hBlocks (places : List Nat) :
      ((places.flatMap (blockView ctx)).map (dressed last.pendingFrames)).map
        Prod.snd = places.flatMap (outputBlock ctx last.pendingFrames) := by
    rw [map_map, map_flatMap]
    rfl
  have hCode := map_dressed_numbered seeds hFrames
  simp only [map_append, hBlocks] at hView
  rw [map_map] at hView
  exact hView.trans (by rw [← hCode]; rfl)

end Simulation

variable {field : PayloadField} {isStatic : Bool} {reg : Registry}
variable {fields : List PayloadField}

-- What the code needs

/- A field that is seeded holds a payload, which takes two cells. -/
theorem PayloadField.width_of_ofField? {declared : Field}
    (hField : ofField? reg declared = some field)
    (hSeeded : field.nullValue.isSome = true) :
    field.type.width = 2 := by
  unfold ofField? at hField
  split at hField
  · simp only at hField
    rcases Option.map_eq_some_iff.mp hField with ⟨type, hType, rfl⟩
    unfold nullValueOf? at hSeeded
    split at hSeeded
    · rename_i hPayload
      rcases Bool.and_eq_true_iff.mp hPayload with ⟨hKind, hScalar⟩
      generalize (reg.tagOf declared.type).payloadOf = tag at hType hKind hScalar
      rcases tag with ⟨kind, depth⟩
      have hDepth : depth = 0 := by simpa [Tag.isArray] using hScalar
      subst hDepth
      cases kind <;> cases hKind
      cases hType
      rfl
    · cases hSeeded
  · cases hField

theorem ClassLayout.width_of_seeded {keptBoxed : List ClassName} {cls : Class}
    (hField : field ∈ (ofClass reg keptBoxed cls).fieldsToSeed isStatic) :
    field.type.width = 2 ∧ field.isStatic = isStatic := by
  rcases mem_filter.mp hField with ⟨hMember, hChosen⟩
  rcases Bool.and_eq_true_iff.mp hChosen with ⟨hStatic, hSeeded⟩
  refine ⟨?_, beq_iff_eq.mp hStatic⟩
  simp only [ofClass] at hMember
  split at hMember
  · rcases mem_filterMap.mp hMember with ⟨declared, _, hOf⟩
    exact PayloadField.width_of_ofField? hOf hSeeded
  · cases hMember

/- Seeding one field takes the receiver, if there is one, and a payload. -/
theorem PayloadField.within_seed (owner : ClassName) (depth : Nat)
    (hWidth : field.type.width = 2) :
    Within (depth + if field.isStatic then 2 else 3) depth (field.seed owner) ∧
      depthAfter depth (field.seed owner) = depth ∧
        ∀ i ∈ field.seed owner, i.localsEnd ≤ if field.isStatic then 0 else 1 := by
  unfold PayloadField.seed
  cases hValue : field.nullValue with
  | none =>
    refine ⟨?_, rfl, nofun⟩
    rw [within_nil]
    exact Nat.le_add_right _ _
  | some value =>
    have hPutStatic : (Instruction.field .putStatic (field.ref owner)).taken = 2 ∧
        (Instruction.field .putStatic (field.ref owner)).left = 0 := by
      simp [Instruction.taken, Instruction.left, PayloadField.ref, hWidth,
        FieldAccess.isStatic, FieldAccess.isPut]
    have hPutField : (Instruction.field .putField (field.ref owner)).taken = 3 ∧
        (Instruction.field .putField (field.ref owner)).left = 0 := by
      simp [Instruction.taken, Instruction.left, PayloadField.ref, hWidth,
        FieldAccess.isStatic, FieldAccess.isPut]
    have hConstant (below : Nat) :
        (nullConstant value).depthAfter below = below + 2 :=
      depthAfter_nullConstant value below
    cases hStatic : field.isStatic with
    | true =>
      simp only [if_true, within_cons, within_nil, depthAfter_cons, depthAfter_nil, hConstant]
      simp only [Instruction.depthAfter, hPutStatic.1, hPutStatic.2]
      refine ⟨by omega, by omega, ?_⟩
      exact forall_mem_cons.mpr ⟨Nat.le_of_eq (localsEnd_nullConstant value),
        forall_mem_singleton.mpr (Nat.le_refl 0)⟩
    | false =>
      simp only [Bool.false_eq_true, if_false, within_cons, within_nil,
        depthAfter_cons, depthAfter_nil, hConstant, depthAfter_load, ValueKind.cells]
      simp only [Instruction.depthAfter, hPutField.1, hPutField.2]
      refine ⟨by omega, by omega, ?_⟩
      refine forall_mem_cons.mpr ⟨Nat.le_refl 1, forall_mem_cons.mpr
        ⟨?_, forall_mem_singleton.mpr (Nat.zero_le 1)⟩⟩
      rw [localsEnd_nullConstant]
      exact Nat.zero_le 1

/- Seeding fields one after another takes no more than seeding one. -/
theorem within_seeds (owner : ClassName) (depth : Nat)
    (hFields : ∀ field ∈ fields, field.type.width = 2 ∧ field.isStatic = isStatic) :
    Within (depth + if isStatic then 2 else 3) depth (fields.flatMap (·.seed owner)) := by
  induction fields with
  | nil =>
    rw [flatMap_nil, within_nil]
    exact Nat.le_add_right _ _
  | cons field fields ih =>
    rcases forall_mem_cons.mp hFields with ⟨⟨hWidth, rfl⟩, hOthers⟩
    rcases field.within_seed owner depth hWidth with ⟨hWithin, hDepth, _⟩
    rw [flatMap_cons, within_append, hDepth]
    exact ⟨hWithin, ih hOthers⟩

theorem localsEnd_seeds (owner : ClassName)
    (hFields : ∀ field ∈ fields, field.type.width = 2 ∧ field.isStatic = isStatic)
    {i : Instruction} (hMember : i ∈ fields.flatMap (·.seed owner)) :
    i.localsEnd ≤ if isStatic then 0 else 1 := by
  rcases mem_flatMap.mp hMember with ⟨field, hField, hCode⟩
  rcases hFields field hField with ⟨hWidth, rfl⟩
  exact (field.within_seed owner 0 hWidth).2.2 i hCode

/- The end of the locals that an element reads or writes. -/
def Node.localsEnd : Node → Nat
  | .insn i => i.localsEnd
  | _ => 0

namespace Simulation

variable {ctx : Context} {mid st after last : State} {i : Nat}

-- Elements of a pass

theorem regular_start (ctx : Context) :
    (State.start ctx).Regular ctx.plan where
  stack := ⟨.empty, nofun⟩
  locals := ctx.method.regular_initialLocals ctx.reg ctx.layout.name
    ctx.body
  agreed := nofun

theorem State.Regular.settled {plan : Array Nat} (hMid : mid.Regular plan) :
    mid.settled.Regular plan where
  stack := ⟨⟨hMid.stack.counted.src, hMid.stack.counted.dst, hMid.stack.counted.peak⟩,
    hMid.stack.definite⟩
  locals := hMid.locals
  agreed := hMid.agreed

theorem State.MarkedFrom.same {marked : State} (hMarked : st.MarkedFrom marked) :
    marked.stack = st.stack ∧ marked.locals = st.locals ∧
      marked.scratchEnd = st.scratchEnd := by
  rcases hMarked with rfl | rfl
  · exact ⟨rfl, rfl, rfl⟩
  · unfold State.marked
    split <;> exact ⟨rfl, rfl, rfl⟩

/- An element that was gone past, with what has become of it covered. -/
structure Passed (ctx : Context) (i : Nat) (st mid : State) : Prop where
  before : stateAfter ctx i = some st
  edited : midAt ctx i = some mid
  after : stateAfter ctx (i + 1) = some mid.settled
  covered : ∃ marked, State.MarkedFrom { st with here := i } marked ∧
    Covered ctx 0 marked mid

theorem Visited.passed (hTyped : ctx.reg.Typed)
    (hOwn : ∀ node ∈ ctx.body.nodes, node.localsEnd ≤ ctx.body.maxLocals)
    (hNode : ctx.body.nodes[i]? = some node)
    (hState : stateAfter ctx i = some st)
    (hVisited : Visited ctx i node st mid) (hRegular : st.Regular ctx.plan) :
    Passed ctx i st mid := by
  refine ⟨hState, hVisited.edited, hVisited.after, ?_⟩
  have hHere : State.Regular ctx.plan { st with here := i } :=
    ⟨hRegular.stack, hRegular.locals, hRegular.agreed⟩
  refine covered_step hTyped hHere hVisited.between.edit ?_ hVisited.issues hVisited.step
  intro instruction hInstruction
  have hEnd := hOwn _ (mem_of_getElem? hNode)
  rw [hInstruction] at hEnd
  exact hEnd

theorem Passed.regular (hPassed : Passed ctx i st mid) :
    mid.Regular ctx.plan := by
  rcases hPassed.covered with ⟨marked, _, hCovered⟩
  exact hCovered.regular

section

variable (hTyped : ctx.reg.Typed)
variable (hOwn : ∀ node ∈ ctx.body.nodes, node.localsEnd ≤ ctx.body.maxLocals)
include hTyped hOwn

/- Every state between two elements is regular. -/
theorem regular_stateAfter (hInside : i ≤ ctx.body.nodes.length)
    (hState : stateAfter ctx i = some st) :
    st.Regular ctx.plan :=
  stateAfter_induct (motive := fun _ st => st.Regular ctx.plan)
    (regular_start ctx)
    (fun _ _ _ _ hNode hBefore hVisited hRegular =>
      (hVisited.passed hTyped hOwn hNode hBefore hRegular).regular.settled)
    hInside hState

/- Every element before the last state was gone past. -/
theorem passed_stateAfter
    (hLast : stateAfter ctx ctx.body.nodes.length = some last)
    (hInside : i < ctx.body.nodes.length) :
    ∃ st mid, Passed ctx i st mid := by
  have hNode := getElem?_eq_getElem hInside
  rcases visited_of_lt hLast hNode hInside with ⟨st, mid, hState, hVisited⟩
  have hRegular := regular_stateAfter hTyped hOwn (Nat.le_of_lt hInside) hState
  exact ⟨st, mid, hVisited.passed hTyped hOwn hNode hState hRegular⟩

end

-- Limits along a pass

/- What would be reported in a state is no less than in an earlier one. -/
structure Grows (ctx : Context) (earlier later : State) : Prop where
  stack : earlier.stack.peak ≤ later.stack.peak
  reach : earlier.reach ctx ≤ later.reach ctx

theorem Grows.refl (ctx : Context) (st : State) :
    Grows ctx st st :=
  ⟨Nat.le_refl _, Nat.le_refl _⟩

theorem Grows.trans {first second third : State} (hFirst : Grows ctx first second)
    (hSecond : Grows ctx second third) :
    Grows ctx first third :=
  ⟨Nat.le_trans hFirst.stack hSecond.stack, Nat.le_trans hFirst.reach hSecond.reach⟩

theorem Passed.grows (hPassed : Passed ctx i st mid) :
    Grows ctx st mid := by
  rcases hPassed.covered with ⟨marked, hMarked, hCovered⟩
  rcases hMarked.same with ⟨hStack, hLocals, hScratch⟩
  have hReach := hCovered.raises.reach ctx
  have hPeak := hCovered.raises.stack
  unfold State.reach at hReach
  rw [hLocals, hScratch] at hReach
  rw [hStack] at hPeak
  exact ⟨hPeak, hReach⟩

theorem grows_stateAfter (hTyped : ctx.reg.Typed)
    (hOwn : ∀ node ∈ ctx.body.nodes, node.localsEnd ≤ ctx.body.maxLocals)
    {j : Nat} {earlier later : State} (hLe : i ≤ j)
    (hInside : j ≤ ctx.body.nodes.length)
    (hEarlier : stateAfter ctx i = some earlier)
    (hLater : stateAfter ctx j = some later) :
    Grows ctx earlier later := by
  have hStart := regular_stateAfter hTyped hOwn (Nat.le_trans hLe hInside) hEarlier
  refine (kept_stateAfter
    (fun st => st.Regular ctx.plan ∧ Grows ctx earlier st) ?_ hLe hInside
    hEarlier hLater ⟨hStart, .refl ctx earlier⟩).2
  rintro i node st mid hNode hState hVisited ⟨hRegular, hGrows⟩
  have hPassed := hVisited.passed hTyped hOwn hNode hState hRegular
  have hStep : Grows ctx mid mid.settled := ⟨Nat.le_refl _, Nat.le_refl _⟩
  exact ⟨hPassed.regular.settled, (hGrows.trans hPassed.grows).trans hStep⟩

-- The place for seeding

/-
  A place for seeding is right after what has become of some
  first elements, with the stack as it is there.
-/
def SeedsAt (ctx : Context) (place : Option Handle) (depth : Nat) : Prop :=
  ∃ p st, p ≤ ctx.body.nodes.length ∧ stateAfter ctx p = some st ∧
    st.stack.dst = depth ∧ place = lastHandle ctx p

theorem seedsAt_stateAfter (hTyped : ctx.reg.Typed)
    (hOwn : ∀ node ∈ ctx.body.nodes, node.localsEnd ≤ ctx.body.maxLocals)
    {place : Option Handle} {depth : Nat} (hInside : i ≤ ctx.body.nodes.length)
    (hState : stateAfter ctx i = some st)
    (hFound : st.seeding = .found place depth) :
    SeedsAt ctx place depth := by
  rcases finds_stateAfter hInside hState hFound with ⟨p, before, next, hFinds⟩
  have hLe := Nat.le_of_lt hFinds.inside
  have hRegular := regular_stateAfter hTyped hOwn hLe hFinds.before
  have hNode := getElem?_eq_getElem hFinds.inside
  rcases visited_stateAfter hNode hFinds.before hFinds.after with ⟨mid, hVisited, rfl⟩
  rcases (hVisited.passed hTyped hOwn hNode hFinds.before hRegular).covered with ⟨marked, hMarked, hCovered⟩
  have hMid : mid.seeding = .found place depth := hFinds.found
  have hSame : marked.seeding = .found place depth := by
    rcases hCovered.raises.seeding with hSame | hSuppressed
    · rw [← hSame]
      exact hMid
    · rw [hSuppressed] at hMid
      cases hMid
  refine ⟨p, before, hLe, hFinds.before, ?_, hFinds.place_eq⟩
  rcases hMarked with rfl | rfl
  · exact absurd (hSame.symm.trans hFinds.searching) nofun
  · rw [State.marked, if_pos hFinds.searching] at hSame
    injection hSame

section

variable (hTyped : ctx.reg.Typed)
variable (hOwn : ∀ node ∈ ctx.body.nodes, node.localsEnd ≤ ctx.body.maxLocals)
variable (hLast : stateAfter ctx ctx.body.nodes.length = some last)
variable (hInside : i < ctx.body.nodes.length)
include hTyped hOwn hLast hInside

-- What comes out

/- The locals of what stands in the place of an element are counted in the end. -/
theorem localsEnd_outputBlock {node : Node}
    (hNode : node ∈ outputBlock ctx last.pendingFrames i) :
    node.localsEnd ≤ last.reach ctx := by
  rcases passed_stateAfter hTyped hOwn hLast hInside with ⟨st, mid, hPassed⟩
  have hGrows := grows_stateAfter hTyped hOwn hInside (Nat.le_refl _) hPassed.after hLast
  have hReach : mid.reach ctx ≤ last.reach ctx := hGrows.reach
  have hSource : ctx.body.nodes[i]? = some ctx.body.nodes[i] :=
    getElem?_eq_getElem hInside
  have hBlock : blockView ctx i =
      mid.edit.view mid.code.links.size i ctx.body.nodes[i] := by
    simp [blockView, hPassed.edited, hSource]
  rcases hPassed.covered with ⟨marked, _, hCovered⟩
  have hCounted {instruction : Instruction}
      (hMember : instruction ∈ mid.edit.before ++ mid.edit.fate.instructions) :
      instruction.localsEnd ≤ last.reach ctx :=
    Nat.le_trans (hCovered.reach instruction hMember) hReach
  unfold outputBlock at hNode
  rw [hBlock] at hNode
  rcases mem_map.mp hNode with ⟨entry, hEntry, rfl⟩
  rcases dressed_cases last.pendingFrames entry with ⟨_, hKept⟩ | ⟨change, _, hDressed⟩
  · rw [hKept]
    rcases mem_append.mp hEntry with hBefore | hHere
    · have hCode := mem_map_of_mem (f := Prod.snd) hBefore
      rw [numbered_snd] at hCode
      rcases mem_map.mp hCode with ⟨instruction, hMember, hSame⟩
      rw [← hSame]
      exact hCounted (mem_append_left _ hMember)
    · cases hFate : mid.edit.fate with
      | kept =>
        rw [hFate] at hHere
        rw [mem_singleton.mp hHere]
        exact Nat.le_trans (hOwn _ (getElem_mem hInside))
          (Nat.le_trans (le_planned ctx.plan _) (Nat.le_max_right _ _))
      | replaced other =>
        rw [hFate] at hHere
        rw [mem_singleton.mp hHere]
        cases other with
        | insn instruction =>
          apply hCounted
          rw [hFate]
          exact mem_append_right _ (mem_singleton.mpr rfl)
        | _ => exact Nat.zero_le _
      | removed =>
        rw [hFate] at hHere
        cases hHere
  · rw [hDressed]
    exact Nat.zero_le _

/- What becomes of an element stays within the peak that is reported. -/
theorem within_passed (hPassed : Passed ctx i st mid) :
    Within last.stack.peak st.stack.dst
      (mid.edit.before ++ mid.edit.fate.substitute) := by
  rcases hPassed.covered with ⟨marked, hMarked, hCovered⟩
  have hGrows := grows_stateAfter hTyped hOwn hInside (Nat.le_refl _) hPassed.after hLast
  have hPeak : mid.stack.peak ≤ last.stack.peak := hGrows.stack
  have hWithin := hCovered.within
  rw [hMarked.same.1] at hWithin
  exact hWithin.mono (by omega) (Nat.le_refl _)

end

/- Seeding raises the peak of the stack and leaves the locals alone. -/
theorem seed_raises (hOk : seed ctx st = .ok () after) :
    st.stack.peak ≤ after.stack.peak ∧ after.locals = st.locals ∧
      after.scratchEnd = st.scratchEnd := by
  rcases seed_cases hOk with rfl | ⟨place, depth, _, rfl⟩
  · exact ⟨Nat.le_refl _, rfl, rfl⟩
  · exact ⟨Nat.le_max_left _ _, rfl, rfl⟩

/-
  The code that seeds fields stands between two blocks. It is
  covered by what is reserved for it, and by the last state if
  that counts the receiver.
-/
theorem seeds_covered (hTyped : ctx.reg.Typed)
    (hOwn : ∀ node ∈ ctx.body.nodes, node.localsEnd ≤ ctx.body.maxLocals)
    (hFields : ∀ field ∈ ctx.layout.fieldsToSeed ctx.method.isClassInitializer,
      field.type.width = 2 ∧ field.isStatic = ctx.method.isClassInitializer)
    {seeded : State}
    (hLast : stateAfter ctx ctx.body.nodes.length = some last)
    (hReceiver : ctx.method.isClassInitializer = false →
      last.seeding ≠ .inapplicable → 1 ≤ last.reach ctx)
    (hSeed : seed ctx last = .ok () seeded) :
    ∃ count st seeds, count ≤ ctx.body.nodes.length ∧ stateAfter ctx count = some st ∧
        (withFrames seeded.code seeded.pendingFrames).toList =
          (List.range count).flatMap (outputBlock ctx last.pendingFrames) ++
            seeds.map .insn ++ outputFrom ctx last.pendingFrames count ∧
          Within seeded.stack.peak st.stack.dst seeds ∧
            ∀ instruction ∈ seeds, instruction.localsEnd ≤ last.reach ctx := by
  rcases seed_cases hSeed with rfl | ⟨place, depth, hPlace, rfl⟩
  · rcases nodes_insertAt hLast (Nat.zero_le _) [] with ⟨seeds, hNone, hOut⟩
    have hEmpty : seeds = [] := hNone.elim id id
    have hSame : insertAt (lastHandle ctx 0) seeded.code [] = seeded.code := by
      unfold insertAt
      cases seeded.code.first <;> rfl
    rw [hSame, hEmpty] at hOut
    refine ⟨0, State.start ctx, [], Nat.zero_le _, rfl, hOut, ?_, forall_mem_nil _⟩
    rw [within_nil]
    exact Nat.zero_le _
  · have hAt : SeedsAt ctx place depth := by
      rcases hPlace with hFound | ⟨_, rfl, rfl⟩
      · exact seedsAt_stateAfter hTyped hOwn (Nat.le_refl _) hLast hFound
      · exact ⟨0, State.start ctx, Nat.zero_le _, rfl, rfl, rfl⟩
    have hApplies : last.seeding ≠ .inapplicable := by
      rcases hPlace with hFound | ⟨hSearching, _⟩
      · rw [hFound]
        simp
      · rw [hSearching]
        simp
    rcases hAt with ⟨count, st, hCount, hState, hDepth, rfl⟩
    rcases nodes_insertAt hLast hCount (seedBlock ctx) with ⟨seeds, hSeeds, hOut⟩
    have hWithin : Within
        (last.stack.reserve
          (depth + if ctx.method.isClassInitializer then 2 else 3)).peak
        st.stack.dst (seedBlock ctx) := by
      rw [hDepth]
      exact (within_seeds ctx.layout.name depth hFields).mono
        (Nat.le_max_right _ _) (Nat.le_refl _)
    have hEnds : ∀ instruction ∈ seedBlock ctx, instruction.localsEnd ≤ last.reach ctx := by
      intro instruction hMember
      have hEnd := localsEnd_seeds ctx.layout.name hFields hMember
      cases hClass : ctx.method.isClassInitializer with
      | true =>
        rw [hClass, if_pos rfl] at hEnd
        exact Nat.le_trans hEnd (Nat.zero_le _)
      | false =>
        rw [hClass, if_neg Bool.false_ne_true] at hEnd
        exact Nat.le_trans hEnd (hReceiver hClass hApplies)
    rcases hSeeds with rfl | rfl
    · exact ⟨count, st, seedBlock ctx, hCount, hState, hOut, hWithin, hEnds⟩
    · refine ⟨count, st, [], hCount, hState, hOut, ?_, forall_mem_nil _⟩
      rw [within_nil]
      exact hWithin.start

end Simulation

open Simulation

namespace Method

section Limits

variable {method : Method} {reg : Registry} {keptBoxed : List ClassName}
variable {cls : Class} {body : Body}

/- The local that seeding reads is there from the start on. -/
theorem one_le_reach_start (settings : Settings)
    (hSeeds : method.seedsFields (.ofClass reg keptBoxed cls) = true)
    (hStatic : method.isClassInitializer = false)
    (hReceiver : method.isConstructor = true → method.isStatic = true →
      0 < body.maxLocals ∨ method.type.parameters ≠ []) :
    let ctx :=
      Context.ofMethod reg settings (.ofClass reg keptBoxed cls) method body
    1 ≤ (State.start ctx).reach ctx := by
  intro ctx
  have hConstructor : method.isConstructor = true := by
    rcases Bool.or_eq_true_iff.mp hSeeds with hInstance | hClass
    · exact (Bool.and_eq_true_iff.mp hInstance).1
    · rw [hStatic] at hClass
      cases hClass
  by_cases hLocals : 0 < body.maxLocals
  · have hMoved := le_planned ctx.plan ctx.body.maxLocals
    have hSame : ctx.body.maxLocals = body.maxLocals := rfl
    unfold State.reach
    omega
  · have hSome : method.initialVariables reg cls.name ≠ [] := by
      unfold initialVariables
      cases hKind : method.isStatic with
      | false => simp
      | true =>
        have hParameters := (hReceiver hConstructor hKind).resolve_left hLocals
        simpa using hParameters
    have hPeak : 1 ≤ (State.start ctx).locals.peak :=
      method.peak_initialLocals reg cls.name body hSome
    unfold State.reach
    omega

/-
  The limits that are reported with an unboxed body cover it. No
  local that an element reads or writes lies above the first
  one. The code put before an element, with the instruction in
  its place, keeps the stack within the second one, counted from
  the depth that is simulated there; and so does the code that
  seeds fields, which stands in one piece between two blocks.
  Accesses to fields and calls that take other types are not
  counted, as they are single instructions, whose operands and
  results are simulated.
  Only a static method with the name of a constructor must have
  some local, since seeding takes its first one for the receiver.
-/
theorem limits_cover_output
    {mapping : Mapping}
    (hRegistry : Registry.ofMapping mapping = .ok reg)
    (settings : Settings)
    (keptBoxed : List ClassName)
    (cls : Class)
    (method : Method)
    (body : Body)
    (hOwn : ∀ node ∈ body.nodes, node.localsEnd ≤ body.maxLocals)
    (hReceiver : method.isConstructor = true → method.isStatic = true →
      0 < body.maxLocals ∨ method.type.parameters ≠ [])
    {unboxed : UnboxedBody}
    (hOk : method.unbox reg settings (.ofClass reg keptBoxed cls) body = .ok unboxed)
    (hModified : unboxed.modified = true) :
    let ctx :=
      Context.ofMethod reg settings (.ofClass reg keptBoxed cls) method body
    (∀ node ∈ unboxed.body.nodes, node.localsEnd ≤ unboxed.body.maxLocals) ∧
      (∀ i < body.nodes.length, ∃ st mid,
        stateAfter ctx i = some st ∧ midAt ctx i = some mid ∧
          Within unboxed.body.maxStack st.stack.dst
            (mid.edit.before ++ mid.edit.fate.substitute)) ∧
      ∃ count st frames seeds,
        count ≤ body.nodes.length ∧ stateAfter ctx count = some st ∧ unboxed.body.nodes =
            (List.range count).flatMap (outputBlock ctx frames) ++
              seeds.map .insn ++ outputFrom ctx frames count ∧
            Within unboxed.body.maxStack st.stack.dst seeds := by
  intro ctx
  rcases unbox_ok hOk with ⟨_, rfl⟩ | ⟨final, hRun⟩
  · cases hModified
  have hTyped : ctx.reg.Typed := Registry.typed_ofMapping hRegistry
  rcases run_ok hRun with ⟨_, last, hLast, hFinish⟩
  rcases finish_ok hFinish with ⟨seeded, hSeed, hSame, hOut⟩
  rcases hOut with ⟨hNot, _⟩ | ⟨_, vars, _, _, hBody⟩
  · rw [hSame, hNot] at hModified
    cases hModified
  have hStack : seeded.stack.peak ≤ unboxed.body.maxStack := by
    rw [hBody]
    exact Nat.le_max_left _ _
  rcases seed_raises hSeed with ⟨hPeak, hSameLocals, hSameScratch⟩
  have hReach : last.reach ctx ≤ unboxed.body.maxLocals := by
    have hPlaced := (between_stateAfter (Nat.le_refl _) hLast).placed
    rw [hBody, State.remade, hSameLocals, hSameScratch, hPlaced.locals.address_eq]
    exact Nat.le_refl _
  -- A constructor that seeds fields counts its receiver from the start on.
  have hFirst : ctx.method.isClassInitializer = false →
      last.seeding ≠ .inapplicable → 1 ≤ last.reach ctx := by
    intro hClass hApplies
    have hSeeds : method.seedsFields (.ofClass reg keptBoxed cls) = true := by
      by_contra hNone
      have hNoSeeds : ctx.method.seedsFields ctx.layout = false :=
        Bool.eq_false_iff.mpr hNone
      exact hApplies (seeding_stateAfter hNoSeeds (Nat.le_refl _) hLast)
    exact Nat.le_trans (one_le_reach_start settings hSeeds hClass hReceiver)
      (grows_stateAfter hTyped hOwn (Nat.zero_le _) (Nat.le_refl _) rfl hLast).reach
  have hFields : ∀ field ∈ ctx.layout.fieldsToSeed ctx.method.isClassInitializer,
      field.type.width = 2 ∧ field.isStatic = ctx.method.isClassInitializer :=
    fun field hField => ClassLayout.width_of_seeded hField
  rcases seeds_covered hTyped hOwn hFields hLast hFirst hSeed with
    ⟨count, st, seeds, hCount, hState, hOut, hWithin, hEnds⟩
  rw [← nodes_remade seeded ctx.body vars, ← hBody] at hOut
  refine ⟨?_, ?_, count, st, last.pendingFrames, seeds, hCount, hState, hOut,
    hWithin.mono hStack (Nat.le_refl _)⟩
  · intro node hNode
    refine Nat.le_trans ?_ hReach
    rw [hOut] at hNode
    rcases mem_append.mp hNode with hEarlier | hLater
    · rcases mem_append.mp hEarlier with hBlock | hSeeded
      · rcases mem_flatMap.mp hBlock with ⟨i, hRange, hMember⟩
        exact localsEnd_outputBlock hTyped hOwn hLast
          (Nat.lt_of_lt_of_le (mem_range.mp hRange) hCount) hMember
      · rcases mem_map.mp hSeeded with ⟨instruction, hMember, rfl⟩
        exact hEnds instruction hMember
    · rcases mem_flatMap.mp hLater with ⟨i, hRange, hMember⟩
      have hBounds := mem_range'_1.mp hRange
      exact localsEnd_outputBlock hTyped hOwn hLast (by omega) hMember
  · intro i hInside
    rcases passed_stateAfter hTyped hOwn hLast hInside with ⟨st, mid, hPassed⟩
    refine ⟨st, mid, hPassed.before, hPassed.edited, ?_⟩
    exact (within_passed hTyped hOwn hLast hInside hPassed).mono
      (Nat.le_trans hPeak hStack) (Nat.le_refl _)

end Limits

-- A class whose field is seeded

def ledgerName : ClassName := ⟨"Ledger", by decide⟩

def totalName : MemberName := ⟨"total", by decide⟩

def ledgerClass : Class :=
  ⟨ledgerName, 0, some .object, [⟨totalName, .object Batch.moneyName, 0⟩], []⟩

/- A body that stores its parameter into the field. -/
def openingBody : Body where
  maxStack := 2
  maxLocals := 2
  nodes :=
    [ .insn (.load .reference 0), .insn (.invoke .special ⟨.object, .init, ⟨[], none⟩⟩),
      .insn (.load .reference 0), .insn (.load .reference 1),
      .insn (.field .putField ⟨ledgerName, totalName, .object Batch.moneyName⟩),
      .branch (.ret none) ]
  vars := []
  handlers := []

def openingMethod : Method :=
  ⟨.init, ⟨[.object Batch.moneyName], none⟩, 0, some openingBody⟩

/-
  The field is seeded before it is stored into, on top of the
  receiver and the parameter, so five cells are reported.
-/
theorem limits_cover_output_opening :
    ∃ reg unboxed, Registry.ofMapping Batch.ledgerMapping = .ok reg ∧
        (∀ node ∈ openingBody.nodes, node.localsEnd ≤ openingBody.maxLocals) ∧
        openingMethod.isStatic = false ∧
        openingMethod.unbox reg ⟨[], false⟩ (.ofClass reg [] ledgerClass)
          openingBody = .ok unboxed ∧
        unboxed.modified = true ∧ unboxed.body.maxStack = 5 ∧ unboxed.body.maxLocals = 2 ∧
        ∀ node ∈ unboxed.body.nodes, node.localsEnd ≤ unboxed.body.maxLocals := by
  have hAll : (Registry.ofMapping Batch.ledgerMapping).toOption.any (fun reg =>
      (openingMethod.unbox reg ⟨[], false⟩ (.ofClass reg [] ledgerClass)
        openingBody).toOption.any (fun unboxed =>
          unboxed.modified && decide (unboxed.body.maxStack = 5) &&
            decide (unboxed.body.maxLocals = 2))) = true := by
    decide +kernel
  cases hRegistry : Registry.ofMapping Batch.ledgerMapping with
  | error fault =>
    rw [hRegistry] at hAll
    cases hAll
  | ok reg =>
    rw [hRegistry] at hAll
    rcases ok_of_any hAll with ⟨unboxed, hOk, hReported⟩
    rcases Bool.and_eq_true_iff.mp hReported with ⟨hBoth, hLocals⟩
    rcases Bool.and_eq_true_iff.mp hBoth with ⟨hModified, hStack⟩
    have hOwn : ∀ node ∈ openingBody.nodes, node.localsEnd ≤ openingBody.maxLocals := by
      decide
    have hStatic : openingMethod.isStatic = false := by decide
    have hCovered := limits_cover_output hRegistry ⟨[], false⟩ [] ledgerClass
      openingMethod openingBody hOwn (fun _ _ => .inl (by decide)) hOk hModified
    exact ⟨reg, unboxed, rfl, hOwn, hStatic, hOk, hModified,
      of_decide_eq_true hStack, of_decide_eq_true hLocals, hCovered.1⟩

/- A static method with the name of a constructor, without any local. -/
def bareMethod : Method :=
  ⟨.init, ⟨[], none⟩, 8, some ⟨0, 0, [.branch (.ret none)], [], []⟩⟩

/-
  The code that seeds the field loads a receiver from a local
  that is neither there nor reported.
-/
theorem seeding_without_receiver :
    ∃ reg unboxed, Registry.ofMapping Batch.ledgerMapping = .ok reg ∧
        bareMethod.unbox reg ⟨[], false⟩ (.ofClass reg [] ledgerClass)
          ⟨0, 0, [.branch (.ret none)], [], []⟩ = .ok unboxed ∧
        (∀ node ∈ [Node.branch (.ret none)], node.localsEnd ≤ 0) ∧
        unboxed.modified = true ∧ unboxed.body.maxLocals = 0 ∧
        .insn (.load .reference 0) ∈ unboxed.body.nodes ∧
        ¬ ∀ node ∈ unboxed.body.nodes, node.localsEnd ≤ unboxed.body.maxLocals := by
  have hAll : (Registry.ofMapping Batch.ledgerMapping).toOption.any (fun reg =>
      (bareMethod.unbox reg ⟨[], false⟩ (.ofClass reg [] ledgerClass)
        ⟨0, 0, [.branch (.ret none)], [], []⟩).toOption.any (fun unboxed =>
          unboxed.modified && decide (unboxed.body.maxLocals = 0) &&
            decide (.insn (.load .reference 0) ∈ unboxed.body.nodes))) = true := by
    decide +kernel
  cases hRegistry : Registry.ofMapping Batch.ledgerMapping with
  | error fault =>
    rw [hRegistry] at hAll
    cases hAll
  | ok reg =>
    rw [hRegistry] at hAll
    rcases ok_of_any hAll with ⟨unboxed, hOk, hReported⟩
    rcases Bool.and_eq_true_iff.mp hReported with ⟨hBoth, hLoad⟩
    rcases Bool.and_eq_true_iff.mp hBoth with ⟨hModified, hLocals⟩
    have hNone : unboxed.body.maxLocals = 0 := of_decide_eq_true hLocals
    have hMember : .insn (.load .reference 0) ∈ unboxed.body.nodes :=
      of_decide_eq_true hLoad
    refine ⟨reg, unboxed, rfl, hOk, by decide, hModified, hNone, hMember, ?_⟩
    intro hCovered
    have hEnd := hCovered _ hMember
    rw [hNone] at hEnd
    exact absurd hEnd (by decide)

end Method

end Unboxing
