import Unboxing.Proofs.SlotAssignment
import Unboxing.Proofs.StackAgreement

/-
  How the locals become what is agreed at a label: the code that
  is put before the element that is looked at, and the tags that
  the slots are left with. All paths to a label agree. A state
  that was turned into what is agreed has the same tags and
  addresses, doing it again changes nothing, and nothing later
  changes what was agreed.

  Main declarations:
    * `Simulation.reconcileLocals_ok`
    * `Simulation.Reconciled`
    * `Simulation.reconcile_ok`
    * `Simulation.Agrees`
    * `Simulation.switch_ok`
    * `Simulation.paths_agree`
-/

namespace Unboxing

open List SlotMap

namespace Simulation

variable {ctx : Context} {plan : Array Nat} {st after : State}
variable {slot : Nat} {vars : List (Nat × Tag)} {moves : List Move}
variable {label : Label} {move : Move} {map first last : SlotMap}
variable {want : Tag} {agreed : SlotSnapshot}

-- Moves of locals

/- What was found out about locals that are to become variables. -/
structure Collected (plan : Array Nat) (vars : List (Nat × Tag)) (moves : List Move)
    (before after : SlotMap) : Prop where
  placed : Placed plan after
  others : ∀ slot, slot ∉ vars.map Prod.fst →
    after.tagAt slot = before.tagAt slot
  moves_sublist :
    (moves.map fun move => (move.slot, move.want)).Sublist vars
  move : ∀ move ∈ moves,
    move.found = before.tagAt move.slot ∧
      after.tagAt move.slot = move.found ∧
        move.found.needsCode move.want = true ∧
          move.source = planned plan move.slot ∧
            move.target = planned plan move.slot
  vars : ∀ entry ∈ vars,
    (before.tagAt entry.1).isVoid = false ∧
      (before.tagAt entry.1).cast entry.2 ≠ .failure ∧
        ((before.tagAt entry.1).needsCode entry.2 = false ∧
            after.tagAt entry.1 = entry.2 ∨
          ∃ move ∈ moves, move.slot = entry.1 ∧ move.want = entry.2)

theorem Collected.nil (hPlaced : Placed plan map) : Collected plan [] [] map map where
  placed := hPlaced
  others := fun _ _ => rfl
  moves_sublist := List.Sublist.refl _
  move := nofun
  vars := nofun

theorem Collected.free {between : SlotMap} (hUsed : (first.tagAt slot).isVoid = false)
    (hCast : (first.tagAt slot).cast want ≠ .failure)
    (hCode : (first.tagAt slot).needsCode want = false)
    (hBetween : ∀ other,
      between.tagAt other = if slot = other then want else first.tagAt other)
    (hFresh : slot ∉ vars.map Prod.fst)
    (hRest : Collected plan vars moves between last) :
    Collected plan ((slot, want) :: vars) moves first last := by
  have hOther {other : Nat} (hDiffers : slot ≠ other) :
      between.tagAt other = first.tagAt other := by
    rw [hBetween, if_neg hDiffers]
  have hVar {entry : Nat × Tag} (hEntry : entry ∈ vars) : slot ≠ entry.1 := by
    intro hSame
    exact hFresh (hSame ▸ mem_map_of_mem hEntry)
  have hMoved {move : Move} (hMove : move ∈ moves) : slot ≠ move.slot := by
    have hMember := hRest.moves_sublist.subset (mem_map_of_mem hMove)
    exact hVar hMember
  refine ⟨hRest.placed, ?_, hRest.moves_sublist.cons _, ?_, ?_⟩
  · intro other hNot
    rw [map_cons, mem_cons, not_or] at hNot
    rw [hRest.others other hNot.2, hOther (Ne.symm hNot.1)]
  · intro move hMove
    rw [← hOther (hMoved hMove)]
    exact hRest.move move hMove
  · intro entry hEntry
    rcases mem_cons.mp hEntry with rfl | hLater
    · refine ⟨hUsed, hCast, .inl ⟨hCode, ?_⟩⟩
      rw [hRest.others slot hFresh, hBetween, if_pos rfl]
    · rw [← hOther (hVar hLater)]
      exact hRest.vars entry hLater

theorem Collected.pending (hUsed : (first.tagAt slot).isVoid = false)
    (hCode : (first.tagAt slot).needsCode want = true)
    (hFresh : slot ∉ vars.map Prod.fst) (hRest : Collected plan vars moves first last) :
    Collected plan ((slot, want) :: vars)
      (⟨slot, first.tagAt slot, want, planned plan slot,
        planned plan slot⟩ :: moves) first last where
  placed := hRest.placed
  others := by
    intro other hNot
    rw [map_cons, mem_cons, not_or] at hNot
    exact hRest.others other hNot.2
  moves_sublist := hRest.moves_sublist.cons_cons _
  move := forall_mem_cons.mpr
    ⟨⟨rfl, hRest.others slot hFresh, hCode, rfl, rfl⟩, hRest.move⟩
  vars := by
    intro entry hEntry
    rcases mem_cons.mp hEntry with rfl | hLater
    · refine ⟨hUsed, ?_, .inr ⟨_, mem_cons_self .., rfl, rfl⟩⟩
      rcases Tag.needsCode_iff.mp hCode with hBoxing | hUnboxing
      · simp [hBoxing]
      · simp [hUnboxing]
    · rcases hRest.vars entry hLater with ⟨hLive, hCast, hDone | hMoved⟩
      · exact ⟨hLive, hCast, .inl hDone⟩
      · rcases hMoved with ⟨move, hMove, hAt⟩
        exact ⟨hLive, hCast, .inr ⟨move, mem_cons_of_mem _ hMove, hAt⟩⟩

theorem collectMoves_ok (hPlaced : Placed plan st.locals)
    (hAgreed : PlacedCells plan agreed.cells)
    (hVars : ∀ entry ∈ vars, entry ∈ agreed.vars) (hSlots : (vars.map Prod.fst).Nodup)
    (hOk : collectMoves label agreed vars ctx st = .ok moves after) :
    Collected plan vars moves st.locals after.locals ∧
      after.bench = { st.bench with locals := after.locals } := by
  induction vars generalizing st moves with
  | nil =>
    cases hOk
    exact ⟨.nil hPlaced, rfl⟩
  | cons entry vars ih =>
    rcases entry with ⟨slot, want⟩
    rcases nodup_cons.mp hSlots with ⟨hFresh, hDistinct⟩
    have hLater := (forall_mem_cons.mp hVars).2
    have hMember := hVars (slot, want) (mem_cons_self ..)
    rcases mem_varsOf.mp hMember with ⟨hTag, hLive⟩
    have hTarget : agreed.address slot = planned plan slot :=
      hAgreed.snapshot_address (Nat.le_of_lt (lt_size_of_tagIn (hTag ▸ hLive)))
    have hSource := hPlaced.address_eq slot
    unfold collectMoves at hOk
    rw [get_bind] at hOk
    simp only [hSource, hTarget, and_true] at hOk
    by_cases hSame : st.locals.tagAt slot = want
    · rw [if_pos hSame] at hOk
      rcases ih hPlaced hLater hDistinct hOk with ⟨hRest, hBench⟩
      have hCast : (st.locals.tagAt slot).cast want = .success := by
        rw [hSame, Tag.cast_self]
      refine ⟨.free (hSame ▸ hLive) (by simp [hCast]) (by simp [Tag.needsCode, hCast])
        ?_ hFresh hRest, hBench⟩
      intro other
      split
      · rename_i hOther
        rw [← hOther, hSame]
      · rfl
    rw [if_neg hSame] at hOk
    split at hOk
    · cases hOk
    rename_i hFits
    simp only [Bool.or_eq_true, not_or, Bool.not_eq_true, bne_eq_false_iff_eq,
      beq_eq_false_iff_ne] at hFits
    rcases hFits with ⟨⟨hUsed, hWidth⟩, hCast⟩
    have hRoom (hPayload : want.isPayload = true) :
        2 ≤ plannedRoom plan slot :=
      vars_room hAgreed hMember hPayload
    by_cases hCode : (st.locals.tagAt slot).needsCode want = true
    · simp only [hCode, Bool.not_true, Bool.false_eq_true, and_false, if_false] at hOk
      rcases bind_ok.mp hOk with ⟨more, between, hMore, hOk⟩
      cases hOk
      rcases ih hPlaced hLater hDistinct hMore with ⟨hRest, hBench⟩
      exact ⟨.pending hUsed hCode hFresh hRest, hBench⟩
    · rw [Bool.not_eq_true] at hCode
      simp only [hCode, Bool.not_false, and_true, if_true] at hOk
      rcases hPlaced.retag?_eq hUsed hWidth hRoom with
        ⟨locals, hRetag, hRetagged, hTags⟩
      rw [bind_apply, changeLocals, modify_apply] at hOk
      simp only [hRetag, Option.getD_some] at hOk
      rcases ih hRetagged hLater hDistinct hOk with ⟨hRest, hBench⟩
      exact ⟨.free hUsed hCast hCode hTags hFresh hRest, hBench⟩

def Move.store (move : Move) : Instruction :=
  .store move.want.valueKind move.target

/-
  The code that converts some locals. Each of them is loaded
  before any is stored, and they are stored in reverse.
-/
inductive MovesCode (reg : Registry) :
    List Move → List Instruction → Prop where
  | nil : MovesCode reg [] []
  | null
      {move : Move}
      {moves : List Move}
      {info : ValueClass}
      {code : List Instruction}
      (hNull : move.isNullPayload = true)
      (hClass : reg.class? (move.want.class?.getD .first) = some info)
      (hRest : MovesCode reg moves code) :
      MovesCode reg (move :: moves)
        (code ++ [nullConstant info.nullValue, move.store])
  | convert
      {move : Move}
      {moves : List Move}
      {conversion code : List Instruction}
      (hNull : move.isNullPayload = false)
      (hConversion :
        ConversionCode reg move.found move.want conversion)
      (hRest : MovesCode reg moves code) :
      MovesCode reg (move :: moves)
        (.load move.found.valueKind move.source
          :: (code ++ (conversion ++ [move.store])))

theorem loadForMove_ok (hOk : loadForMove move ctx st = .ok () after) :
    after.bench =
      if move.isNullPayload = true then
        st.bench
      else
        (st.bench.withEntries
          (⟨move.found, st.locals.nameAt move.slot⟩ :: st.bench.entries)).emit
            [.load move.found.valueKind move.source] := by
  unfold loadForMove at hOk
  by_cases hNull : move.isNullPayload = true
  · simp only [hNull, Bool.not_true, Bool.false_eq_true, if_false] at hOk
    cases hOk
    rw [if_pos hNull]
  · rw [Bool.not_eq_true] at hNull
    simp only [hNull, Bool.not_false, if_true] at hOk
    rcases bind_ok.mp hOk with ⟨slot, _, hSlot, hOk⟩
    rcases slotNumber_ok hSlot with ⟨rfl, rfl⟩
    rcases bind_ok.mp hOk with ⟨_, loaded, hLoad, hOk⟩
    have hLoaded := emit_ok hLoad
    rw [get_bind] at hOk
    rw [push_ok hOk, hLoaded]
    have hLocals : loaded.locals = st.locals := congrArg Bench.locals hLoaded
    simp [hNull, hLocals]

/- A value on top is stored where a local belongs. -/
theorem storeTop_ok (hPlaced : Placed plan st.locals)
    (hRoom : move.want.HasRoom plan move.slot)
    (hOk : storeMoved label move ctx st = .ok () after) :
    ∃ name, after.bench =
      { entries := st.bench.entries.tail
        locals := st.locals.withCells
          (Placed.stored st.locals move.slot move.want name)
        scratch := st.bench.scratch
        edit := st.bench.edit.emit [move.store] } := by
  rcases bind_ok.mp hOk with ⟨slot, _, hSlot, hOk⟩
  rcases slotNumber_ok hSlot with ⟨rfl, rfl⟩
  rw [get_bind] at hOk
  generalize st.stack.nameAt 0 = name at hOk
  rcases bind_ok.mp hOk with ⟨_, popped, hPop, hOk⟩
  have hPopped := (withStack_ok hPop).2
  rw [OperandStack.entries_pop] at hPopped
  rcases bind_ok.mp hOk with ⟨_, stored, hStore, hOk⟩
  have hStored := emit_ok hStore
  rw [hPopped] at hStored
  have hLocals : stored.locals = st.locals := congrArg Bench.locals hStored
  rw [get_bind] at hOk
  simp only [hLocals, hPlaced.put_eq name hRoom] at hOk
  cases hOk
  refine ⟨name, ?_⟩
  have hChanged (locals : SlotMap) :
      State.bench { stored with locals := locals } =
        { stored.bench with locals := locals } := rfl
  rw [hChanged, hStored]
  rfl

/- The cells after a local was stored have the tag it was stored with. -/
theorem tagAt_stored {tag : Tag} (hPlaced : Placed plan map)
    (hUsed : (map.tagAt slot).isVoid = false) (hNarrow : tag.isSrcWide = false)
    (name : Option String) (other : Nat) :
    (map.withCells (Placed.stored map slot tag name)).tagAt other =
      if slot = other then tag else map.tagAt other := by
  have hHead : map.isTail slot = false := by
    rw [isTail, content?_eq, beq_eq_false_iff_ne]
    intro hTail
    rw [tagAt_eq, tagIn_of_content hTail] at hUsed
    cases hUsed
  rw [tagAt_eq]
  change tagIn (Placed.stored map slot tag name) other = _
  rw [tagIn_stored hPlaced.cells.paired]
  simp [hHead, hNarrow]

section

variable (hPlaced : Placed plan st.locals)
variable (hRoom : move.want.HasRoom plan move.slot)
include hPlaced hRoom

theorem storeForMove_null (hNull : move.isNullPayload = true)
    (hOk : storeForMove label move ctx st = .ok () after) :
    ∃ info name,
      ctx.reg.class? (move.want.class?.getD .first) = some info ∧
        after.bench =
          { entries := st.bench.entries
            locals := st.locals.withCells
              (Placed.stored st.locals move.slot move.want name)
            scratch := st.bench.scratch
            edit := st.bench.edit.emit
              [nullConstant info.nullValue, move.store] } := by
  unfold storeForMove at hOk
  simp only [hNull, if_true] at hOk
  rcases bind_ok.mp hOk with ⟨info, _, hInfo, hOk⟩
  rcases valueClass_ok hInfo with ⟨hClass, rfl⟩
  rcases bind_ok.mp hOk with ⟨_, loaded, hLoad, hOk⟩
  rcases bind_ok.mp hOk with ⟨_, pushed, hPush, hOk⟩
  have hPushed := push_ok hPush
  rw [emit_ok hLoad] at hPushed
  have hLocals : pushed.locals = st.locals := congrArg Bench.locals hPushed
  rcases storeTop_ok (hLocals ▸ hPlaced) hRoom hOk with ⟨name, hAfter⟩
  refine ⟨info, name, hClass, ?_⟩
  rw [hAfter, hLocals, hPushed]
  simp [Bench.withEntries, Bench.emit]

theorem storeForMove_convert {entry : Entry} {entries : List Entry}
    (hNull : move.isNullPayload = false)
    (hEntries : st.bench.entries = entry :: entries) (hFound : entry.tag = move.found)
    (hOk : storeForMove label move ctx st = .ok () after) :
    ∃ conversion name,
      ConversionCode ctx.reg move.found move.want conversion ∧
        after.bench =
          { entries := entries
            locals := st.locals.withCells
              (Placed.stored st.locals move.slot move.want name)
            scratch := st.bench.scratch
            edit := st.bench.edit.emit (conversion ++ [move.store]) } := by
  unfold storeForMove at hOk
  simp only [hNull, Bool.false_eq_true, if_false] at hOk
  rcases bind_ok.mp hOk with ⟨_, turned, hTurn, hOk⟩
  rcases convertTop_ok hTurn with ⟨_, conversion, hConversion, hTurned⟩
  have hTop : st.bench.tagAt 0 = move.found := by
    simp [Bench.tagAt, hEntries, hFound]
  rw [hTop] at hConversion hTurned
  have hLocals : turned.locals = st.locals := congrArg Bench.locals hTurned
  rcases storeTop_ok (hLocals ▸ hPlaced) hRoom hOk with ⟨name, hAfter⟩
  refine ⟨conversion, name, hConversion, ?_⟩
  rw [hAfter, hLocals, hTurned, hEntries]
  simp [Bench.withEntries, Bench.emit]

end

/- What holds after some locals were moved. -/
structure Moved (plan : Array Nat) (moves : List Move)
    (before after : SlotMap) : Prop where
  placed : Placed plan after
  moved : ∀ move ∈ moves, after.tagAt move.slot = move.want
  others : ∀ slot, slot ∉ moves.map Move.slot →
    after.tagAt slot = before.tagAt slot

/- One more local is moved around the others. -/
theorem Moved.cons {before inner after : SlotMap} (hInner : Moved plan moves before inner)
    (hFresh : move.slot ∉ moves.map Move.slot) (hPlaced : Placed plan after)
    (hTags : ∀ other,
      after.tagAt other =
        if move.slot = other then move.want else inner.tagAt other) :
    Moved plan (move :: moves) before after where
  placed := hPlaced
  moved := by
    intro other hMember
    rcases mem_cons.mp hMember with rfl | hLater
    · rw [hTags, if_pos rfl]
    · rw [hTags, if_neg, hInner.moved other hLater]
      intro hSame
      exact hFresh (hSame ▸ mem_map_of_mem hLater)
  others := by
    intro slot hNot
    rw [map_cons, mem_cons, not_or] at hNot
    rw [hTags, if_neg (Ne.symm hNot.1), hInner.others slot hNot.2]

/- A local that is to be moved. -/
structure Movable (plan : Array Nat) (map : SlotMap) (move : Move) : Prop where
  used : (map.tagAt move.slot).isVoid = false
  code : move.found.needsCode move.want = true
  room : move.want.isPayload = true → 2 ≤ plannedRoom plan move.slot

/-
  The locals are loaded in order and stored in reverse, so each
  is stored from right where its own load had put it.
-/
theorem moves_ok (hPlaced : Placed plan st.locals)
    (hMovable : ∀ move ∈ moves, Movable plan st.locals move)
    (hSlots : (moves.map Move.slot).Nodup)
    (hOk : (do
        moves.forM loadForMove
        moves.reverse.forM (storeForMove label) : Simulation Unit) ctx st =
      .ok () after) :
    ∃ code, MovesCode ctx.reg moves code ∧
      Moved plan moves st.locals after.locals ∧
        after.bench =
          { st.bench with
            locals := after.locals
            edit := st.bench.edit.emit code } := by
  induction moves generalizing st after with
  | nil =>
    cases hOk
    refine ⟨[], .nil, ⟨hPlaced, nofun, fun _ _ => rfl⟩, ?_⟩
    rw [Edit.emit_nil]
    rfl
  | cons move moves ih =>
    rcases nodup_cons.mp hSlots with ⟨hFresh, hDistinct⟩
    have hMove := hMovable move (mem_cons_self ..)
    have hNarrow := (Tag.narrow_of_needsCode hMove.code).2.2
    simp only [forM_eq_forM, reverse_cons, forM_append,
      forM_cons, forM_nil] at ih hOk
    rcases bind_ok.mp hOk with ⟨_, loadedAll, hLoads, hOk⟩
    rw [bind_ok] at hLoads hOk
    rcases hLoads with ⟨_, loaded, hLoad, hLoads⟩
    rcases hOk with ⟨_, inner, hStores, hOk⟩
    rcases bind_ok.mp hOk with ⟨_, stored, hStore, hOk⟩
    cases hOk
    have hLoaded := loadForMove_ok hLoad
    have hLocals : loaded.locals = st.locals := by
      have hSame := congrArg Bench.locals hLoaded
      split at hSame <;> exact hSame
    have hOthers : ∀ other ∈ moves, Movable plan loaded.locals other := by
      intro other hMember
      rw [hLocals]
      exact hMovable other (mem_cons_of_mem _ hMember)
    have hBracket : (forM moves loadForMove >>= fun _ =>
        forM moves.reverse (storeForMove label)) ctx loaded =
          .ok () inner := by
      rw [bind_ok]
      exact ⟨_, loadedAll, hLoads, hStores⟩
    rcases ih (hLocals ▸ hPlaced) hOthers hDistinct hBracket with
      ⟨code, hCode, hInner, hBench⟩
    rw [hLocals] at hInner
    have hUsed : (inner.locals.tagAt move.slot).isVoid = false := by
      rw [hInner.others move.slot hFresh]
      exact hMove.used
    -- In both cases the local is stored with what it has become.
    have hMoved {name : Option String}
        (hAfter : after.locals = inner.locals.withCells
          (Placed.stored inner.locals move.slot move.want name)) :
        Moved plan (move :: moves) st.locals after.locals := by
      rw [hAfter]
      exact hInner.cons hFresh
        (hInner.placed.withCells (hInner.placed.stored_placed hMove.room))
        (tagAt_stored hInner.placed hUsed hNarrow name)
    cases hNull : move.isNullPayload with
    | true =>
      rcases storeForMove_null hInner.placed hMove.room hNull hStore with
        ⟨info, name, hClass, hAfter⟩
      have hStored : after.locals = inner.locals.withCells
          (Placed.stored inner.locals move.slot move.want name) :=
        congrArg Bench.locals hAfter
      refine ⟨_, .null hNull hClass hCode, hMoved hStored, ?_⟩
      rw [if_pos hNull] at hLoaded
      rw [hLoaded] at hBench
      rw [hAfter, hBench, hStored]
      simp
    | false =>
      rw [if_neg (by simp [hNull])] at hLoaded
      rw [hLoaded] at hBench
      rcases storeForMove_convert hInner.placed hMove.room hNull
        (congrArg Bench.entries hBench) rfl hStore with
        ⟨conversion, name, hConversion, hAfter⟩
      have hStored : after.locals = inner.locals.withCells
          (Placed.stored inner.locals move.slot move.want name) :=
        congrArg Bench.locals hAfter
      refine ⟨_, .convert hNull hConversion hCode, hMoved hStored, ?_⟩
      rw [hAfter, hBench, hStored]
      simp [Bench.emit, Bench.withEntries]

/- How the locals become what is agreed. -/
structure LocalsReconciled (reg : Registry) (plan : Array Nat)
    (agreed : SlotSnapshot) (moves : List Move) (code : List Instruction)
    (before after : SlotMap) : Prop where
  placed : Placed plan after
  casts : ∀ entry ∈ agreed.vars,
    (before.tagAt entry.1).isVoid = false ∧
      (before.tagAt entry.1).cast entry.2 ≠ .failure
  vars : ∀ entry ∈ agreed.vars, after.tagAt entry.1 = entry.2
  others : ∀ slot, slot ∉ agreed.vars.map Prod.fst →
    after.tagAt slot = before.tagAt slot
  coded : MovesCode reg moves code
  move : ∀ move ∈ moves,
    (move.slot, move.want) ∈ agreed.vars ∧
      move.found = before.tagAt move.slot ∧
        move.found.needsCode move.want = true ∧
          move.source = planned plan move.slot ∧
            move.target = planned plan move.slot
  complete : ∀ entry ∈ agreed.vars,
    (before.tagAt entry.1).needsCode entry.2 = true →
      entry.1 ∈ moves.map Move.slot

theorem reconcileLocals_ok (hPlaced : Placed plan st.locals)
    (hAgreed : PlacedCells plan agreed.cells)
    (hOk : reconcileLocals label agreed ctx st = .ok () after) :
    ∃ moves code,
      LocalsReconciled ctx.reg plan agreed moves code st.locals
          after.locals ∧
        after.bench =
          { st.bench with
            locals := after.locals
            edit := st.bench.edit.emit code } := by
  unfold reconcileLocals at hOk
  rcases bind_ok.mp hOk with ⟨moves, collected, hCollect, hOk⟩
  rcases collectMoves_ok hPlaced hAgreed (fun _ hEntry => hEntry)
    (nodup_varsOf agreed.cells) hCollect with ⟨hCollected, hBench⟩
  have hMember {move : Move} (hMove : move ∈ moves) :
      (move.slot, move.want) ∈ agreed.vars :=
    hCollected.moves_sublist.subset (mem_map_of_mem hMove)
  have hSlots : (moves.map Move.slot).Nodup := by
    have hSublist := hCollected.moves_sublist.map Prod.fst
    rw [map_map] at hSublist
    exact hSublist.nodup (nodup_varsOf agreed.cells)
  have hMovable : ∀ move ∈ moves, Movable plan collected.locals move := by
    intro move hMove
    rcases hCollected.move move hMove with ⟨_, hFound, hCode, _⟩
    refine ⟨?_, hCode, vars_room hAgreed (hMember hMove)⟩
    rw [hFound]
    exact (Tag.narrow_of_needsCode hCode).1.1
  rcases moves_ok hCollected.placed hMovable hSlots hOk with
    ⟨code, hCode, hMoved, hAfter⟩
  refine ⟨moves, code, ⟨hMoved.placed, ?_, ?_, ?_, hCode, ?_, ?_⟩, ?_⟩
  · intro entry hEntry
    rcases hCollected.vars entry hEntry with ⟨hUsed, hCast, _⟩
    exact ⟨hUsed, hCast⟩
  · intro entry hEntry
    rcases hCollected.vars entry hEntry with ⟨_, _, ⟨hFree, hTag⟩ | hMove⟩
    · rw [hMoved.others, hTag]
      -- A local that was retagged is none of those that are moved.
      intro hOther
      rcases mem_map.mp hOther with ⟨move, hMove, hSlot⟩
      rcases hCollected.move move hMove with ⟨hFound, _, hNeeds, _⟩
      have hWant : move.want = entry.2 := by
        rw [← (mem_varsOf.mp (hMember hMove)).1, hSlot,
          (mem_varsOf.mp hEntry).1]
      rw [hFound, hSlot, hWant, hFree] at hNeeds
      cases hNeeds
    · rcases hMove with ⟨move, hMove, hSlot, hWant⟩
      rw [← hSlot, ← hWant]
      exact hMoved.moved move hMove
  · intro slot hNot
    rw [hMoved.others, hCollected.others slot hNot]
    intro hOther
    rcases mem_map.mp hOther with ⟨move, hMove, hSlot⟩
    exact hNot (hSlot ▸ mem_map_of_mem (hMember hMove))
  · intro move hMove
    rcases hCollected.move move hMove with ⟨hFound, _, hRest⟩
    exact ⟨hMember hMove, hFound, hRest⟩
  · intro entry hEntry hNeeds
    rcases hCollected.vars entry hEntry with ⟨_, _, ⟨hFree, _⟩ | hMove⟩
    · rw [hFree] at hNeeds
      cases hNeeds
    · rcases hMove with ⟨move, hMove, hSlot, _⟩
      exact hSlot ▸ mem_map_of_mem hMove
  · rw [hAfter, hBench]

-- Stack and locals

/-
  The stages of turning a state into what is agreed: what that
  is, then the stack, then the locals.
-/
structure Reconciled (ctx : Context) (plan : Array Nat) (label : Label)
    (operands : Nat) (found : Join) (before joined turned after : State) : Prop where
  joins : join label operands ctx before = .ok found joined
  joined_placed : joined.Placed plan
  cells : PlacedCells plan found.locals.cells
  stack : ∃ tops entries code, tops.length = operands ∧
    StackReconciled ctx.reg found.stack.tags tops entries code
      joined.bench turned.bench
  locals : ∃ moves code,
    LocalsReconciled ctx.reg plan found.locals moves code
        joined.locals after.locals ∧
      after.bench =
        { turned.bench with
          locals := after.locals
          edit := turned.bench.edit.emit code }
  agreed : after.agreed.lookup label = some found
  placed : after.Placed plan

theorem reconcile_ok {operands : Nat} {found : Join} (hPlaced : st.Placed plan)
    (hOk : reconcile label operands ctx st = .ok found after) :
    ∃ joined turned,
      Reconciled ctx plan label operands found st joined turned after := by
  unfold reconcile at hOk
  rcases bind_ok.mp hOk with ⟨same, joined, hJoin, hOk⟩
  rcases bind_ok.mp hOk with ⟨_, turned, hStack, hOk⟩
  rcases bind_ok.mp hOk with ⟨_, last, hLocals, hOk⟩
  cases hOk
  rcases Steps.leads (steps_join trivial trivial label operands) hPlaced hJoin with
    ⟨hJoined, hFound⟩
  rcases (steps_reconcileStack label operands hFound.stack).leads hJoined.placed hStack with
    ⟨hTurned, _⟩
  rcases Steps.leads (steps_reconcileLocals trivial label hFound) hTurned.placed hLocals with
    ⟨hAfter, _⟩
  have hCells := hFound.placed plan rfl
  rcases reconcileStack_ok hStack with ⟨tops, entries, code, hTops, hReconciled⟩
  rcases reconcileLocals_ok hTurned.placed.locals hCells hLocals with
    ⟨moves, localsCode, hMoves, hBench⟩
  have hSame : turned.locals = joined.locals := by
    rcases hReconciled.bench_eq with ⟨_, hTurnedBench⟩
    exact congrArg Bench.locals hTurnedBench
  rw [hSame] at hMoves
  refine ⟨joined, turned, hJoin, hJoined.placed, hCells,
    ⟨tops, entries, code, hTops, hReconciled⟩, ⟨moves, localsCode, hMoves, hBench⟩,
    ?_, hAfter.placed⟩
  exact hAfter.agreed label found
    (hTurned.agreed label found (join_ok hJoin).1)

-- Agreement

variable {operands : Nat} {agreed : Join} {targets : List Label} {joined : State}

/-
  Below some operands, the stack has the tags that are agreed,
  and so have the locals, at the same addresses.
-/
structure Agrees (st : State) (operands : Nat) (agreed : Join) : Prop where
  size : st.stack.size = agreed.stack.size + operands
  tags : (st.stack.entries.drop operands).map Entry.tag =
    agreed.stack.entries.map Entry.tag
  vars : ∀ entry ∈ agreed.locals.vars, st.locals.tagAt entry.1 = entry.2 ∧
      st.locals.address entry.1 = agreed.locals.address entry.1

/- Variables have the same address in every map that follows the plan. -/
theorem address_of_mem_vars {map : SlotMap} {agreed : SlotSnapshot} {entry : Nat × Tag}
    (hPlaced : Placed plan map) (hCells : PlacedCells plan agreed.cells)
    (hEntry : entry ∈ agreed.vars) :
    map.address entry.1 = agreed.address entry.1 := by
  rcases mem_varsOf.mp hEntry with ⟨hTag, hUsed⟩
  have hInside := lt_size_of_tagIn (hTag ▸ hUsed)
  have hAddress : agreed.address entry.1 = planned plan entry.1 :=
    hCells.snapshot_address (Nat.le_of_lt hInside)
  rw [hPlaced.address_eq, hAddress]

/- Agreement is reached, and the operands stay as they were. -/
theorem Reconciled.agrees {found : Join} {turned : State}
    (hReconciled :
      Reconciled ctx plan label operands found st joined turned after) :
    Agrees after operands found ∧
      after.stack.entries.take operands = st.stack.entries.take operands := by
  rcases hReconciled.stack with ⟨tops, entries, code, hTops, hStack⟩
  rcases hReconciled.locals with ⟨moves, localsCode, hLocals, hAfter⟩
  rcases hStack.bench_eq with ⟨scratch, hTurned⟩
  rcases join_ok hReconciled.joins with ⟨_, _, hJoined, _⟩
  have hBefore : st.stack.entries = tops ++ entries.reverse := by
    have hSame := hStack.entries_eq
    rw [hJoined] at hSame
    exact hSame
  have hEntries : after.stack.entries =
      tops ++ (zipWith Entry.withTag entries found.stack.tags).reverse := by
    rw [hTurned] at hAfter
    exact congrArg Bench.entries hAfter
  have hLength := hStack.casts.length_eq
  have hTags := map_tag_withTag hLength
  refine ⟨⟨?_, ?_, ?_⟩, ?_⟩
  · have hCount : found.stack.tags.length = found.stack.size := by
      simp [StackSnapshot.tags, StackSnapshot.size]
    rw [OperandStack.size, hEntries, length_append, length_reverse,
      length_zipWith, hLength, Nat.min_self, hCount, hTops, Nat.add_comm]
  · rw [hEntries, ← hTops, drop_left, map_reverse, hTags,
      StackSnapshot.tags, reverse_reverse]
  · intro entry hEntry
    exact ⟨hLocals.vars entry hEntry,
      address_of_mem_vars hReconciled.placed.locals hReconciled.cells hEntry⟩
  · rw [hEntries, hBefore, ← hTops, take_left, take_left]

-- Doing it again

/- Entries that have the expected tags are not retagged. -/
theorem retagEntries_agreed (label : Label) {want deeper : List Tag}
    (hTags : (st.stack.entries.drop operands).map Entry.tag = want.reverse ++ deeper) :
    retagEntries label operands want ctx st = .ok [] st := by
  induction want generalizing deeper with
  | nil => rfl
  | cons tag above ih =>
    have hBelow : (st.stack.entries.drop operands).map Entry.tag =
        above.reverse ++ (tag :: deeper) := by
      simpa using hTags
    have hFound : st.stack.tagAt (operands + above.length) = tag := by
      have hAt := congrArg (fun tags => tags[above.length]?) hBelow
      simp only [getElem?_map, getElem?_drop] at hAt
      simp [OperandStack.tagAt, hAt]
    have hTag : tagAt (operands + above.length) ctx st = .ok tag st := by
      rw [← hFound]
      rfl
    unfold retagEntries
    simp only [bind_apply, hTag, if_true]
    exact ih hBelow

/- Locals that are as agreed are not moved. -/
theorem collectMoves_agreed (label : Label)
    {agreed : SlotSnapshot} {vars : List (Nat × Tag)}
    (hVars : ∀ entry ∈ vars, st.locals.tagAt entry.1 = entry.2 ∧
        st.locals.address entry.1 = agreed.address entry.1) :
    collectMoves label agreed vars ctx st = .ok [] st := by
  induction vars with
  | nil => rfl
  | cons entry vars ih =>
    unfold collectMoves
    rw [bind_apply, get_apply]
    simp only
    rw [if_pos (hVars entry (mem_cons_self ..))]
    exact ih (forall_mem_cons.mp hVars).2

/- A state that agrees with what was just settled is left as it is. -/
theorem Agrees.reconcile_joined (hAgrees : Agrees joined operands agreed)
    (hJoin : join label operands ctx st = .ok agreed joined) :
    reconcile label operands ctx st = .ok agreed joined := by
  have hStack : reconcileStack label agreed.stack operands ctx joined = .ok () joined := by
    have hTags : (joined.stack.entries.drop operands).map Entry.tag =
        agreed.stack.tags.reverse ++ [] := by
      rw [hAgrees.tags, StackSnapshot.tags, reverse_reverse, append_nil]
    unfold reconcileStack
    rw [bind_apply, get_apply]
    simp only
    rw [if_neg (not_not_intro hAgrees.size), bind_apply, retagEntries_agreed label hTags]
    rfl
  have hLocals : reconcileLocals label agreed.locals ctx joined = .ok () joined := by
    unfold reconcileLocals
    rw [bind_apply, collectMoves_agreed label hAgrees.vars]
    rfl
  unfold reconcile
  simp only [bind_apply, hJoin, hStack, hLocals]
  rfl

/- A state that agrees is left exactly as it is. -/
theorem Agrees.reconcile_eq (hAgrees : Agrees st operands agreed)
    (hKnown : st.agreed.lookup label = some agreed) :
    reconcile label operands ctx st = .ok agreed st :=
  hAgrees.reconcile_joined (join_known hKnown operands)

-- Switches

/- A target that was settled before is only compared with. -/
theorem checkTarget_ok {target : Label}
    (hKnown : st.agreed.lookup target = some agreed)
    (hOk : checkTarget target ctx st = .ok () after) :
    after = st ∧ (st.stack.entries.drop 1).map Entry.tag =
        agreed.stack.entries.map Entry.tag ∧
      ∀ entry ∈ agreed.locals.vars, st.locals.tagAt entry.1 = entry.2 := by
  unfold checkTarget at hOk
  rw [bind_apply, join_known hKnown] at hOk
  simp only at hOk
  rw [get_bind] at hOk
  by_cases hTags : (st.stack.save.withoutTop 1).tags = agreed.stack.tags
  swap
  · rw [if_pos hTags] at hOk
    cases hOk
  rw [if_neg (not_not_intro hTags)] at hOk
  cases hVars : agreed.locals.vars.find? fun entry =>
      st.locals.tagAt entry.1 != entry.2 with
  | some entry =>
    rw [hVars] at hOk
    cases hOk
  | none =>
    rw [hVars] at hOk
    cases hOk
    refine ⟨rfl, reverse_injective hTags, ?_⟩
    intro entry hEntry
    simpa using find?_eq_none.mp hVars entry hEntry

/- After all targets were settled, each of them is known. -/
theorem reconcileTargets_ok (hPlaced : st.Placed plan)
    (hOk : (targets.forM fun target => do
        let _ ← reconcile target 1) ctx st = .ok () after) :
    Leads (.following True plan) st after ∧ ∀ target ∈ targets, 0 < after.stack.size ∧
        ∃ agreed, after.agreed.lookup target = some agreed := by
  induction targets generalizing st with
  | nil =>
    cases hOk
    exact ⟨.refl hPlaced.orderly, nofun⟩
  | cons target targets ih =>
    rcases forM_cons_ok hOk with ⟨between, hFirst, hOk⟩
    rcases bind_ok.mp hFirst with ⟨agreed, _, hReconcile, hSame⟩
    cases hSame
    rcases reconcile_ok hPlaced hReconcile with ⟨joined, turned, hReconciled⟩
    have hFirst := (Steps.leads (steps_reconcile trivial trivial target 1) hPlaced hReconcile).1
    rcases ih hReconciled.placed hOk with ⟨hAfter, hLater⟩
    refine ⟨hFirst.trans hAfter, ?_⟩
    have hKnown := hAfter.agreed target agreed hReconciled.agreed
    have hSize : 0 < after.stack.size := by
      cases targets with
      | nil =>
        cases hOk
        rw [hReconciled.agrees.1.size]
        omega
      | cons next targets => exact (hLater next (mem_cons_self ..)).1
    exact forall_mem_cons.mpr ⟨⟨hSize, agreed, hKnown⟩, hLater⟩

/- The comparisons with targets that are known change nothing. -/
theorem checkTargets_ok
    (hKnown : ∀ target ∈ targets, ∃ agreed, st.agreed.lookup target = some agreed)
    (hOk : targets.forM checkTarget ctx st = .ok () after) :
    after = st ∧ ∀ target ∈ targets, checkTarget target ctx st = .ok () st := by
  induction targets with
  | nil =>
    cases hOk
    exact ⟨rfl, nofun⟩
  | cons target targets ih =>
    rcases forM_cons_ok hOk with ⟨between, hFirst, hRest⟩
    rcases hKnown target (mem_cons_self ..) with ⟨agreed, hAgreed⟩
    rcases checkTarget_ok hAgreed hFirst with ⟨rfl, _⟩
    rcases ih (forall_mem_cons.mp hKnown).2 hRest with ⟨hSame, hLater⟩
    exact ⟨hSame, forall_mem_cons.mpr ⟨hFirst, hLater⟩⟩

/- Right before a switch, the state agrees with all its targets. -/
theorem switch_ok (hPlaced : st.Placed plan)
    (hOk : switch targets ctx st = .ok () after) :
    ∃ before, (targets.forM fun target => do
        let _ ← reconcile target 1) ctx st = .ok () before ∧
      popKind .int ctx before = .ok () after ∧ ∀ target ∈ targets, ∃ agreed,
          before.agreed.lookup target = some agreed ∧ Agrees before 1 agreed := by
  unfold switch at hOk
  rcases bind_ok.mp hOk with ⟨_, before, hReconcile, hOk⟩
  rcases bind_ok.mp hOk with ⟨_, checked, hCheck, hPop⟩
  rcases reconcileTargets_ok hPlaced hReconcile with ⟨hLeads, hKnown⟩
  rcases checkTargets_ok (fun target hTarget => (hKnown target hTarget).2) hCheck with
    ⟨hSame, hChecks⟩
  rw [hSame] at hPop
  refine ⟨before, hReconcile, hPop, ?_⟩
  intro target hTarget
  rcases hKnown target hTarget with ⟨hSize, agreed, hAgreed⟩
  rcases checkTarget_ok hAgreed (hChecks target hTarget) with ⟨_, hTags, hVars⟩
  refine ⟨agreed, hAgreed, ?_, hTags, ?_⟩
  · have hLength := congrArg List.length hTags
    rw [length_map, length_map, length_drop] at hLength
    unfold OperandStack.size at hSize ⊢
    unfold StackSnapshot.size
    omega
  · intro entry hEntry
    exact ⟨hVars entry hEntry, address_of_mem_vars hLeads.placed.locals
      (hLeads.placed.lookup hAgreed) hEntry⟩

-- Methods

/-
  In every state that is reached in a body, turning it into what
  is agreed at a label leads to agreement, keeps the operands,
  can be done again without any change, and settles the label
  for all states that come later. Before a switch that is
  accepted there is agreement with all its targets.
-/
theorem paths_agree
    (method : Method)
    (reg : Registry)
    (settings : Settings)
    (layout : ClassLayout)
    (body : Body) :
    let ctx := Context.ofMethod reg settings layout method body
    (∀ st, Reached ctx st → ∀ label operands agreed after,
        reconcile label operands ctx st = .ok agreed after → Agrees after operands agreed ∧
          after.stack.entries.take operands = st.stack.entries.take operands ∧
          (∀ later, Relation.ReflTransGen (Advance ctx) after later →
            later.agreed.lookup label = some agreed) ∧
          reconcile label operands ctx after = .ok agreed after) ∧
      ∀ st, Reached ctx st →
        ∀ b after, (∃ default low targets, b = .tableSwitch default low targets) ∨
            (∃ default targets, b = .lookupSwitch default targets) →
          branchEffect b ctx st = .ok () after →
            ∃ before, popKind .int ctx before = .ok () after ∧ ∀ target ∈ b.targets, ∃ agreed,
                before.agreed.lookup target = some agreed ∧ Agrees before 1 agreed := by
  intro ctx
  refine ⟨?_, ?_⟩
  · intro st hReached label operands agreed after hOk
    rcases reconcile_ok hReached.placed hOk with ⟨joined, turned, hReconciled⟩
    rcases hReconciled.agrees with ⟨hAgrees, hOperands⟩
    refine ⟨hAgrees, hOperands, ?_, hAgrees.reconcile_eq hReconciled.agreed⟩
    intro later hLater
    have hLeads := leads_of_advances hLater hReconciled.placed
    exact hLeads.agreed label agreed hReconciled.agreed
  · intro st hReached b after hSwitch hOk
    have hTargets : switch b.targets ctx st = .ok () after := by
      rcases hSwitch with ⟨default, low, targets, rfl⟩ | ⟨default, targets, rfl⟩
      · exact hOk
      · exact hOk
    rcases switch_ok hReached.placed hTargets with ⟨before, _, hPop, hAgrees⟩
    exact ⟨before, hPop, hAgrees⟩

-- A loop with a payload

def loopStart : Label := ⟨0⟩

def loopEnd : Branch :=
  .tableSwitch loopStart 0 [loopStart]

/-
  A body whose loop is entered with a value in a local and is
  repeated with null in it.
-/
def loopBody : Body where
  maxStack := 1
  maxLocals := 2
  nodes :=
    [ .insn (.load .reference 0), .insn (.store .reference 1),
      .label loopStart, .frame (.append [.object (.object Batch.moneyName)]),
      .insn .pushNull, .insn (.store .reference 1), .insn (.plain .iconst0), .branch loopEnd ]
  vars := []
  handlers := []

def loopMethod : Method :=
  ⟨⟨"loop", by decide⟩, ⟨[.object Batch.moneyName], none⟩, 8, some loopBody⟩

def loopContext : Context :=
  .ofMethod Method.moneyRegistry ⟨[], false⟩ Method.accountLayout loopMethod loopBody

/-
  Before the branch the local is null, where the first path had
  a payload. It becomes a payload, under the operand of the
  branch, and the switch is accepted.
-/
theorem paths_agree_loop :
    ∃ st agreed after, stateAfter loopContext 7 = some st ∧
        (st.locals.tagAt 1).isNull = true ∧
        reconcile loopStart 1 loopContext st = .ok agreed after ∧
        (after.locals.tagAt 1).isPayload = true ∧ Agrees after 1 agreed ∧
        reconcile loopStart 1 loopContext after = .ok agreed after ∧ ∃ before last,
          branchEffect loopEnd loopContext st = .ok () last ∧
          popKind .int loopContext before = .ok () last ∧
          ∃ join, before.agreed.lookup loopStart = some join ∧ Agrees before 1 join := by
  rcases paths_agree loopMethod Method.moneyRegistry ⟨[], false⟩ Method.accountLayout
    loopBody with ⟨hReconcile, hSwitch⟩
  have hRun : (stateAfter loopContext 7).any (fun st =>
      (st.locals.tagAt 1).isNull &&
        (((reconcile loopStart 1) loopContext).run' st).isSome &&
        (((do
          let _ ← reconcile loopStart 1
          return ((← get).locals.tagAt 1).isPayload) loopContext).run' st) == some true &&
        (((branchEffect loopEnd) loopContext).run' st).isSome) = true := by
    decide +kernel
  rcases (Option.any_eq_true _ _).mp hRun with ⟨st, hState, hRun⟩
  simp only [Bool.and_eq_true, beq_iff_eq] at hRun
  rcases hRun with ⟨⟨⟨hNull, hTurns⟩, hTurn⟩, hBranch⟩
  have hReached := reached_stateAfter hState
  rcases ok_of_runs hTurns with ⟨agreed, after, hOk⟩
  rcases ok_of_runs hBranch with ⟨_, last, hLast⟩
  have hPayload : (after.locals.tagAt 1).isPayload = true := by
    unfold EStateM.run' EStateM.run at hTurn
    rw [bind_apply, hOk] at hTurn
    exact Option.some.inj hTurn
  rcases hReconcile st hReached loopStart 1 agreed after hOk with ⟨hAgrees, _, _, hAgain⟩
  rcases hSwitch st hReached loopEnd last (.inl ⟨_, _, _, rfl⟩) hLast with
    ⟨before, hPop, hTargets⟩
  exact ⟨st, agreed, after, hState, hNull, hOk, hPayload, hAgrees, hAgain, before,
    last, hLast, hPop, hTargets loopStart (by decide)⟩

end Simulation

end Unboxing
