import Unboxing.Proofs.JoinAgreement
import Unboxing.Proofs.Representation

/-
  What the code that makes a path agree with a label does to
  stack and locals. Values are stored to scratch locals, loaded
  again and converted on the way, and those in locals are
  loaded, converted and stored back.

  Main declarations:
    * `World.exec_spill`
    * `World.exec_reload`
    * `World.exec_stackReconciled`
    * `World.exec_moves`
    * `Simulation.Reconciled.exec`
-/

namespace Unboxing

open List Simulation

namespace World

variable {world : World} {reg : Registry} {entries : List Entry}
variable {values mirrors : List world.Val} {locals : Locals world.Object}
variable {want : List Tag} {code : List Instruction} {moves : List Move}
variable {tags : Nat → Tag} {plan : Array Nat}

-- Scratch locals

theorem exec_spill
    (hStacked : world.Stacked reg (entries.map Entry.tag) values mirrors)
    (cell : Nat) (stack : List world.Val) (locals : Locals world.Object) :
    ∃ after, world.ExecAll ((spilledFrom cell entries).map Spilled.store)
          (mirrors ++ stack) locals stack after ∧
        (∀ other old, locals other = some old → other + width old ≤ cell → after other = some old) ∧
          Forall₂ (fun spilled mirror => after spilled.slot = some mirror)
            (spilledFrom cell entries) mirrors := by
  induction entries generalizing values mirrors cell locals with
  | nil =>
    cases hStacked
    exact ⟨locals, .nil _ _, fun other old hOld _ => hOld, .nil⟩
  | cons entry entries ih =>
    cases hStacked with
    | cons hTop hRest =>
      rename_i mirror values mirrors
      rcases ih hRest (cell + entry.tag.dstWidth) (locals.store cell mirror) with
        ⟨after, hExec, hBelow, hSpilled⟩
      refine ⟨after, .cons ?_ hExec, ?_, .cons ?_ hSpilled⟩
      · rw [Spilled.store, ← hTop.kind_eq]
        exact .store cell mirror _ locals
      · intro other old hOld hEnd
        have hWidth : 0 < width old := by
          cases old <;> exact Nat.succ_pos _
        apply hBelow other old _ (by omega)
        exact Locals.store_of_apart hOld (by omega) (.inl hEnd)
      · apply hBelow cell mirror (Locals.store_self ..)
        exact Nat.le_of_eq (congrArg (cell + ·) hTop.width_shown)

theorem exec_loads {spilled : List Spilled}
    (hStacked : world.Stacked reg (spilled.map (·.entry.tag)) values mirrors)
    (hSpilled : Forall₂
      (fun spilled mirror => locals spilled.slot = some mirror) spilled mirrors)
    (stack : List world.Val) :
    world.ExecAll (spilled.map Spilled.load) stack locals
      (mirrors.reverse ++ stack) locals := by
  induction spilled generalizing values mirrors stack with
  | nil =>
    cases hSpilled
    exact .nil _ _
  | cons first spilled ih =>
    cases hStacked with
    | cons hTop hRest =>
      cases hSpilled with
      | cons hSlot hSlots =>
        rw [reverse_cons, append_assoc]
        refine .cons ?_ (ih hRest hSlots _)
        rw [Spilled.load, ← hTop.kind_eq]
        exact .load hSlot stack

section

variable (hHelpers : world.Helpers reg)
include hHelpers

/- Entries that are loaded again are converted to what is expected. -/
theorem exec_reload {spilled : List Spilled} {rest : List world.Val}
    (hCode : ReloadCode reg spilled want code)
    (hStacked : world.Stacked reg (spilled.map (·.entry.tag)) (values ++ rest)
      mirrors)
    (hSpilled : Forall₂
      (fun spilled mirror => locals spilled.slot = some mirror) spilled mirrors)
    (hBelongs : Forall₂ (world.Belongs reg) want values)
    (stack : List world.Val) :
    ∃ after, world.ExecAll code stack locals (after.reverse ++ stack) locals ∧
        world.Stacked reg
          (want ++ (spilled.map (·.entry.tag)).drop want.length)
          (values ++ rest) after := by
  induction hCode generalizing values mirrors stack with
  | plain spilled want hDone =>
    have hNone : want = [] ∧ values = [] := by
      rcases hDone with rfl | rfl
      · have hLength := hStacked.length_eq.1
        have hSame := hBelongs.length_eq
        simp only [length_append, map_nil, length_nil] at hLength
        exact ⟨length_eq_zero_iff.mp (by omega), length_eq_zero_iff.mp (by omega)⟩
      · cases hBelongs
        exact ⟨rfl, rfl⟩
    rcases hNone with ⟨rfl, rfl⟩
    exact ⟨mirrors, exec_loads hStacked hSpilled stack, hStacked⟩
  | convert hCast hConversion hMore ih =>
    cases hBelongs with
    | cons hFirst hOthers =>
      cases hStacked with
      | cons hTop hRest =>
        cases hSpilled with
        | cons hSlot hSlots =>
          rcases hTop.convert hHelpers hFirst hCast hConversion stack
            locals with ⟨converted, hConvert, hConverted⟩
          rcases ih hRest hSlots hOthers (converted :: stack) with
            ⟨after, hAfter, hStackedAfter⟩
          refine ⟨converted :: after, ?_, .cons hConverted hStackedAfter⟩
          rw [reverse_cons, append_assoc]
          refine .cons ?_ (hConvert.append hAfter)
          rw [Spilled.load, ← hTop.kind_eq]
          exact .load hSlot stack

-- Stacks

theorem Stacked.retagged
    (hStacked : world.Stacked reg (entries.map Entry.tag) values mirrors)
    (hCasts : Forall₂ (fun entry tag => entry.tag.cast tag ≠ .failure)
      entries want)
    (hBelongs : Forall₂ (world.Belongs reg) want values) :
    world.Stacked reg
      ((zipWith Entry.retagged entries want).map Entry.tag)
      values mirrors := by
  induction hCasts generalizing values mirrors with
  | nil => exact hStacked
  | cons hCast _ ih =>
    cases hStacked with
    | cons hTop hRest =>
      cases hBelongs with
      | cons hFirst hOthers =>
        refine .cons ?_ (ih hRest hOthers)
        unfold Entry.retagged
        split
        · exact hTop
        · rename_i hKeep
          exact hTop.keep hHelpers hFirst hCast (Bool.eq_false_iff.mpr hKeep)

/- The code for the stack turns the entries into expected ones. -/
theorem exec_stackCode
    {cell : Nat} {tops : List Entry} {topValues topMirrors : List world.Val}
    (hCode : StackCode reg cell tops entries want code)
    (hTops : world.Stacked reg (tops.map Entry.tag) topValues topMirrors)
    (hStacked : world.Stacked reg (entries.map Entry.tag) values mirrors)
    (hBelongs : Forall₂ (world.Belongs reg) want values)
    (locals : Locals world.Object) :
    ∃ after afterLocals,
      world.ExecAll code (topMirrors ++ mirrors.reverse) locals after afterLocals ∧
        (∀ other old, locals other = some old → other + width old ≤ cell →
          afterLocals other = some old) ∧
          world.Stacked reg (tops.map Entry.tag ++ want.reverse)
            (topValues ++ values.reverse) after := by
  cases hCode with
  | keep hSame =>
    rw [hSame] at hStacked
    exact ⟨_, locals, .nil _ _, fun other old hOld _ => hOld, hTops.append hStacked.reverse⟩
  | reload hEntries hWant hSettled hPending hSpilled hReload =>
    rename_i settled pending tags others spilled code
    subst hEntries hWant
    rw [map_append, hSettled] at hStacked
    rcases hStacked.split with
      ⟨settledValues, pendingValues, settledMirrors, pendingMirrors, rfl, rfl,
        hSettledStack, hPendingStack⟩
    -- What is stored to scratch locals: the tops and the pending entries.
    have hSpill := hTops.append hPendingStack.reverse
    rw [← map_reverse, ← map_append] at hSpill
    rcases exec_spill hSpill cell settledMirrors.reverse locals with
      ⟨afterLocals, hStores, hBelow, hSlots⟩
    rw [← hSpilled] at hStores hSlots
    -- What is loaded again, the deepest first.
    have hTags : spilled.reverse.map (·.entry.tag) =
        pending.map Entry.tag ++ (tops.map Entry.tag).reverse := by
      have hAll : spilled.map (·.entry.tag) = (tops ++ pending.reverse).map Entry.tag := by
        rw [← map_entry_spilledFrom cell (tops ++ pending.reverse), ← hSpilled, map_map]
        rfl
      rw [map_reverse, hAll]
      simp
    have hLoaded : world.Stacked reg (spilled.reverse.map (·.entry.tag))
        (pendingValues ++ topValues.reverse)
        (topMirrors ++ pendingMirrors.reverse).reverse := by
      rw [hTags]
      simpa using hPendingStack.append hTops.reverse
    have hPendingBelongs :
        Forall₂ (world.Belongs reg) others pendingValues := by
      have hDrop := List.forall₂_drop_append _ _ _ hBelongs
      rwa [hSettledStack.length_eq.1, drop_left] at hDrop
    rcases exec_reload hHelpers hReload hLoaded (List.forall₂_reverse_iff.mpr hSlots)
      hPendingBelongs settledMirrors.reverse with ⟨after, hLoads, hAfter⟩
    have hRest : (spilled.reverse.map (·.entry.tag)).drop others.length =
        (tops.map Entry.tag).reverse := by
      rw [hTags, ← hPending, ← length_map Entry.tag, drop_left]
    rw [hRest] at hAfter
    refine ⟨after.reverse ++ settledMirrors.reverse, afterLocals, ?_, hBelow, ?_⟩
    · rw [reverse_append, ← append_assoc]
      exact hStores.append hLoads
    · simpa using hAfter.reverse.append hSettledStack.reverse

/- Turning a stack into what is agreed keeps what its values are. -/
theorem exec_stackReconciled {tops : List Entry} {before after : Bench}
    (hReconciled : StackReconciled reg want tops entries code before after)
    (hStacked : world.Stacked reg (before.entries.map Entry.tag) values
      mirrors)
    (hBelongs : Forall₂ (world.Belongs reg) want.reverse
      (values.drop tops.length))
    (locals : Locals world.Object) :
    ∃ afterMirrors afterLocals, world.ExecAll code mirrors locals afterMirrors afterLocals ∧
        (∀ other old, locals other = some old → other + width old ≤ before.locals.dstSize →
            afterLocals other = some old) ∧
          world.Stacked reg (after.entries.map Entry.tag) values
            afterMirrors := by
  rw [hReconciled.entries_eq, map_append] at hStacked
  rcases hStacked.split with
    ⟨topValues, restValues, topMirrors, restMirrors, rfl, rfl, hTops, hRest⟩
  have hDeep := hRest.reverse
  rw [← map_reverse, reverse_reverse] at hDeep
  have hDeepBelongs :
      Forall₂ (world.Belongs reg) want restValues.reverse := by
    have hLength : topValues.length = tops.length := by
      simpa using hTops.length_eq.1
    rw [← hLength, drop_left] at hBelongs
    simpa using List.forall₂_reverse_iff.mpr hBelongs
  rcases exec_stackCode hHelpers hReconciled.coded hTops
    (hDeep.retagged hHelpers hReconciled.casts hDeepBelongs) hDeepBelongs locals with
      ⟨afterMirrors, afterLocals, hExec, hBelow, hAfter⟩
  rw [reverse_reverse] at hExec hAfter
  refine ⟨afterMirrors, afterLocals, hExec, ?_, ?_⟩
  · intro other old hOld hEnd
    exact hBelow other old hOld (Nat.le_trans hEnd (Nat.le_add_right _ _))
  · rcases hReconciled.bench_eq with ⟨scratch, rfl⟩
    simp only [map_append, map_reverse]
    rw [map_tag_withTag hReconciled.casts.length_eq]
    exact hAfter

end

-- Locals

/- The tags after some moves. -/
def movedTags (moves : List Move) (tags : Nat → Tag) : Nat → Tag :=
  moves.foldr (fun move tags slot =>
    if slot = move.slot then move.want else tags slot) tags

/- Moves to given tags give those tags to the slots that are moved. -/
theorem movedTags_eq {after : Nat → Tag}
    (hMoves : ∀ move ∈ moves, after move.slot = move.want) (slot : Nat) :
    movedTags moves tags slot = if slot ∈ moves.map Move.slot then after slot else tags slot := by
  induction moves with
  | nil => simp [movedTags]
  | cons move moves ih =>
    have hRest := ih (forall_mem_cons.mp hMoves).2
    simp only [movedTags, foldr_cons, map_cons, mem_cons]
    split
    · rename_i hSame
      subst hSame
      rw [if_pos (.inl rfl), hMoves move (mem_cons_self ..)]
    · rename_i hOther
      simp only [hOther, false_or]
      exact hRest

/- What is needed of a local that is converted. -/
structure Convertible (world : World) (reg : Registry) (plan : Array Nat)
    (live : Nat → Prop) (tags : Nat → Tag) (locals : Locals world.Object)
    (move : Move) : Prop where
  live : live move.slot
  found : tags move.slot = move.found
  cast : move.found.cast move.want ≠ .failure
  source : move.source = planned plan move.slot
  target : move.target = planned plan move.slot
  belongs : ∀ value, locals move.slot = some value → world.Belongs reg move.want value

theorem exec_store {move : Move} {value image : world.Val}
    (hTarget : move.target = planned plan move.slot)
    (hImage : world.Represents reg move.want value image)
    (stack : List world.Val) (locals : Locals world.Object) :
    world.ExecAll [move.store] (image :: stack) locals stack
      (locals.store (planned plan move.slot) image) := by
  rw [Move.store, ← hImage.kind_eq, hTarget]
  exact (Exec.store _ image stack locals).all

theorem Shown.move {live : Nat → Prop} {move : Move} {mirror : Locals world.Object}
    {value image : world.Val}
    (hShown : world.Shown reg plan live (movedTags moves tags) locals mirror)
    (hLaid : Laid plan (movedTags (move :: moves) tags))
    (hValue : locals move.slot = some value)
    (hImage : world.Represents reg move.want value image) :
    world.Shown reg plan live (movedTags (move :: moves) tags) locals
      (mirror.store (planned plan move.slot) image) := by
  apply hShown.store hLaid _ hValue
  · simpa [movedTags] using hImage
  · intro other hOther hLive
    exact ⟨hLive, by simp [movedTags, hOther], rfl⟩

/- The code for some moves converts the locals. -/
theorem exec_moves {live : Nat → Prop} {mirror : Locals world.Object}
    (hHelpers : world.Helpers reg) (hCode : MovesCode reg moves code)
    (hLaid : ∀ part, part.Sublist moves → Laid plan (movedTags part tags))
    (hMoves : ∀ move ∈ moves, world.Convertible reg plan live tags locals move)
    (hShown : world.Shown reg plan live tags locals mirror)
    (stack : List world.Val) :
    ∃ after, world.ExecAll code stack mirror stack after ∧
      world.Shown reg plan live (movedTags moves tags) locals after := by
  induction hCode generalizing stack mirror with
  | nil => exact ⟨mirror, .nil _ _, hShown⟩
  | null hNull hClass hRest ih =>
    rename_i move moves info code
    have hMove := hMoves move (mem_cons_self ..)
    rcases ih (fun part hPart => hLaid part (hPart.cons move))
      (forall_mem_cons.mp hMoves).2 hShown stack with ⟨between, hExec, hBetween⟩
    rcases hShown move.slot hMove.live with ⟨value, image, hValue, _, hRepresents⟩
    rw [hMove.found] at hRepresents
    rw [Move.isNullPayload, Bool.and_eq_true] at hNull
    rcases hRepresents.eq_null hNull.1 with ⟨rfl, rfl⟩
    have hImage : world.Represents reg move.want (.ref none)
        (.long info.nullValue) :=
      .nullPayload (Bool.and_eq_true_iff.mp hNull.2).1
        (hMove.belongs _ hValue).noArray hClass
    refine ⟨_, hExec.append (.cons (world.exec_nullConstant _ stack between)
      (exec_store hMove.target hImage stack between)), ?_⟩
    exact hBetween.move (hLaid _ (List.Sublist.refl _)) hValue hImage
  | convert hNull hConversion hRest ih =>
    rename_i move moves conversion code
    have hMove := hMoves move (mem_cons_self ..)
    rcases hShown move.slot hMove.live with
      ⟨value, image, hValue, hImage, hRepresents⟩
    rw [hMove.found] at hRepresents
    rw [← hMove.source] at hImage
    rcases ih (fun part hPart => hLaid part (hPart.cons move))
      (forall_mem_cons.mp hMoves).2 hShown (image :: stack) with ⟨between, hExec, hBetween⟩
    rcases hRepresents.convert hHelpers (hMove.belongs value hValue) hMove.cast
      hConversion stack between with ⟨converted, hConvert, hConverted⟩
    refine ⟨_, .cons ?_ (hExec.append (hConvert.append
      (exec_store hMove.target hConverted stack between))), ?_⟩
    · rw [← hRepresents.kind_eq]
      exact .load hImage stack
    · exact hBetween.move (hLaid _ (List.Sublist.refl _)) hValue hConverted

section

variable {plan : Array Nat} {agreed : SlotSnapshot} {moves : List Move}
variable {code : List Instruction} {before after : SlotMap}

/- The tags after everything but the moves. -/
def keptTags (before after : Nat → Tag) : Nat → Tag :=
  fun slot =>
    if (before slot).needsCode (after slot) then before slot else after slot

section

variable (hReconciled : LocalsReconciled reg plan agreed moves code before after)
include hReconciled

/- A slot keeps its tag or gets the one that is agreed on. -/
theorem tagAt_reconciled (slot : Nat) :
    after.tagAt slot = before.tagAt slot ∨ (slot, after.tagAt slot) ∈ agreed.vars := by
  by_cases hVar : slot ∈ agreed.vars.map Prod.fst
  · rcases mem_map.mp hVar with ⟨entry, hEntry, rfl⟩
    refine .inr ?_
    rw [hReconciled.vars entry hEntry]
    exact hEntry
  · exact .inl (hReconciled.others slot hVar)

theorem isVoid_reconciled (slot : Nat) :
    (before.tagAt slot).isVoid = (after.tagAt slot).isVoid := by
  rcases tagAt_reconciled hReconciled slot with hSame | hVar
  · rw [hSame]
  · rw [(hReconciled.casts _ hVar).1, (SlotMap.mem_varsOf.mp hVar).2]

/- The moves end with the tags that are agreed on. -/
theorem movedTags_reconciled (slot : Nat) :
    movedTags moves (keptTags before.tagAt after.tagAt) slot = after.tagAt slot := by
  rw [movedTags_eq fun move hMove =>
    hReconciled.vars _ (hReconciled.move move hMove).1]
  split
  · rfl
  · rename_i hKept
    unfold keptTags
    split
    · rename_i hCode
      rcases tagAt_reconciled hReconciled slot with hSame | hVar
      · exact hSame.symm
      · exact absurd (hReconciled.complete _ hVar hCode) hKept
    · rfl

/- While they are made, no two locals share a cell. -/
theorem laid_movedTags (hPlaced : SlotMap.Placed plan before) {part : List Move}
    (hPart : part.Sublist moves) :
    Laid plan (movedTags part (keptTags before.tagAt after.tagAt)) := by
  apply hPlaced.laid.of_either hReconciled.placed.laid
    (isVoid_reconciled hReconciled)
  intro slot
  rw [movedTags_eq fun move hMove =>
    hReconciled.vars _ (hReconciled.move move (hPart.subset hMove)).1]
  split
  · exact .inr rfl
  · unfold keptTags
    split
    · exact .inl rfl
    · exact .inr rfl

end

/- Turning locals into what is agreed keeps what their values are. -/
theorem exec_localsReconciled {live : Nat → Prop} {locals mirror : Locals world.Object}
    (hHelpers : world.Helpers reg)
    (hReconciled :
      LocalsReconciled reg plan agreed moves code before after)
    (hPlaced : SlotMap.Placed plan before)
    (hShown : world.Shown reg plan live before.tagAt locals mirror)
    (hLive : ∀ entry ∈ agreed.vars, live entry.1)
    (hBelongs : ∀ entry ∈ agreed.vars, ∀ value, locals entry.1 = some value →
      world.Belongs reg entry.2 value)
    (stack : List world.Val) :
    ∃ afterMirror, world.ExecAll code stack mirror stack afterMirror ∧
      world.Shown reg plan live after.tagAt locals afterMirror := by
  have hKept : world.Shown reg plan live
      (keptTags before.tagAt after.tagAt) locals mirror := by
    intro slot hSlot
    rcases hShown slot hSlot with ⟨value, image, hValue, hImage, hRepresents⟩
    refine ⟨value, image, hValue, hImage, ?_⟩
    unfold keptTags
    split
    · exact hRepresents
    · rename_i hCode
      rcases tagAt_reconciled hReconciled slot with hSame | hVar
      · rw [hSame]
        exact hRepresents
      · exact hRepresents.keep hHelpers (hBelongs _ hVar value hValue)
          (hReconciled.casts _ hVar).2 (Bool.eq_false_iff.mpr hCode)
  have hMoves : ∀ move ∈ moves, world.Convertible reg plan live
      (keptTags before.tagAt after.tagAt) locals move := by
    intro move hMove
    rcases hReconciled.move move hMove with
      ⟨hVar, hFound, hCode, hSource, hTarget⟩
    have hWant : after.tagAt move.slot = move.want :=
      hReconciled.vars _ hVar
    refine ⟨hLive _ hVar, ?_, ?_, hSource, hTarget, hBelongs _ hVar⟩
    · rw [keptTags, hWant, ← hFound, if_pos hCode]
    · rw [hFound]
      exact (hReconciled.casts _ hVar).2
  rcases exec_moves hHelpers hReconciled.coded
    (fun part hPart => laid_movedTags hReconciled hPlaced hPart) hMoves hKept stack
      with ⟨afterMirror, hExec, hAfter⟩
  refine ⟨afterMirror, hExec, ?_⟩
  rwa [funext (movedTags_reconciled hReconciled)] at hAfter

end

end World

-- Joins

/-
  The code that makes a path agree with a label changes how
  values look, but not what they are.
-/
theorem Simulation.Reconciled.exec
    {world : World} {ctx : Context} {plan : Array Nat} {label : Label}
    {operands : Nat} {found : Join} {before joined turned after : State}
    {live : Nat → Prop} {values mirrors : List world.Val}
    {locals mirror : Locals world.Object} (hHelpers : world.Helpers ctx.reg)
    (hReconciled :
      Reconciled ctx plan label operands found before joined turned after)
    (hStacked : world.Stacked ctx.reg
      (before.stack.entries.map Entry.tag) values mirrors)
    (hShown : world.Shown ctx.reg plan live before.locals.tagAt locals
      mirror)
    (hStackBelongs : Forall₂ (world.Belongs ctx.reg)
      (found.stack.entries.map Entry.tag) (values.drop operands))
    (hLive : ∀ entry ∈ found.locals.vars, live entry.1)
    (hLocalsBelong : ∀ entry ∈ found.locals.vars, ∀ value, locals entry.1 = some value →
        world.Belongs ctx.reg entry.2 value) :
    ∃ code afterMirrors afterMirror, after.edit = before.edit.emit code ∧
        world.ExecAll code mirrors mirror afterMirrors afterMirror ∧
          world.Stacked ctx.reg (after.stack.entries.map Entry.tag)
            values afterMirrors ∧ world.Shown ctx.reg plan live after.locals.tagAt locals
              afterMirror := by
  rcases hReconciled.stack with ⟨tops, entries, code, rfl, hStack⟩
  rcases hReconciled.locals with ⟨moves, localsCode, hLocals, hAfter⟩
  rcases hStack.bench_eq with ⟨scratch, hTurned⟩
  rcases join_ok hReconciled.joins with ⟨_, hCells, hJoined, _⟩
  have hTags : joined.locals.tagAt = before.locals.tagAt := by
    funext slot
    rw [SlotMap.tagAt_eq, SlotMap.tagAt_eq, hCells]
  have hEntries : joined.bench.entries = before.stack.entries :=
    congrArg Bench.entries hJoined
  have hEdit : joined.bench.edit = before.edit := congrArg Bench.edit hJoined
  have hAfterEntries : after.stack.entries = turned.bench.entries :=
    congrArg Bench.entries hAfter
  have hAfterEdit : after.edit = turned.bench.edit.emit localsCode :=
    congrArg Bench.edit hAfter
  rw [← hEntries] at hStacked
  rw [← hTags] at hShown
  have hBelongs : Forall₂ (world.Belongs ctx.reg)
      found.stack.tags.reverse (values.drop tops.length) := by
    rw [StackSnapshot.tags, reverse_reverse]
    exact hStackBelongs
  rcases World.exec_stackReconciled hHelpers hStack hStacked hBelongs mirror with
    ⟨afterMirrors, between, hStackExec, hBelow, hAfterStacked⟩
  rcases World.exec_localsReconciled hHelpers hLocals
    hReconciled.joined_placed.locals
    (hShown.of_below hReconciled.joined_placed.locals hBelow) hLive hLocalsBelong
    afterMirrors with ⟨afterMirror, hLocalsExec, hAfterShown⟩
  refine ⟨code ++ localsCode, afterMirrors, afterMirror, ?_,
    hStackExec.append hLocalsExec, ?_, hAfterShown⟩
  · rw [hAfterEdit, hTurned, hEdit, Edit.emit_emit]
  · rw [hAfterEntries]
    exact hAfterStacked

end Unboxing
