import Unboxing.Proofs.Representation

/-
  The tags of locals and stack at a label with a frame: those
  that the frame declares, but payloads may stand in for
  references to values.

  Main declarations:
    * `declaredTag`
    * `Tag.suits_merge`
    * `SlotMap.Placed.suits_narrow`
    * `SlotMap.Placed.tagAt_declaredLocals`
    * `StackSnapshot.suits_narrow`
    * `Method.tagAt_initialLocals`
-/

namespace Unboxing

open List

variable {reg : Registry} {type : FrameType} {slot : Nat} {frame : Frame}
variable {layout : Layout FrameType}

-- Merged tags

/- The tag that the locals of a frame declare for a slot. -/
def declaredTag (reg : Registry) (layout : Layout FrameType) (slot : Nat) : Tag :=
  ((layout.startingAt? slot).map reg.tagOfFrame).getD .void

theorem Registry.tagOfRef_not_void (reg : Registry) (type : RefType) :
    (reg.tagOfRef type).isVoid = false := by
  have hClass (name : ClassName) : (reg.tagOfClass name).isVoid = false := by
    rcases reg.tagOfClass_cases name with hTag | ⟨cls, info, hTag, _⟩ <;>
      rw [hTag] <;> rfl
  cases type with
  | object name => exact hClass name
  | array more element =>
    cases element with
    | base type => cases type <;> rfl
    | object name => exact hClass name

/- Only the type of all values has no tag. -/
theorem Registry.tagOfFrame_void (hVoid : (reg.tagOfFrame type).isVoid = true) :
    type = .top := by
  cases type with
  | top => rfl
  | object type =>
    rw [tagOfFrame, reg.tagOfRef_not_void] at hVoid
    cases hVoid
  | _ => cases hVoid

theorem declaredTag_void (hVoid : (declaredTag reg layout slot).isVoid = true) :
    declaredTag reg layout slot = .void := by
  unfold declaredTag at hVoid ⊢
  cases hStart : layout.startingAt? slot with
  | none => rfl
  | some type =>
    rw [hStart] at hVoid
    rw [Registry.tagOfFrame_void hVoid]
    rfl

/- Nothing is declared beyond the cells of a layout. -/
theorem Layout.Ascending.declaredTag_beyond (hAscending : layout.Ascending)
    (reg : Registry) (hBeyond : layout.cells ≤ slot) :
    declaredTag reg layout slot = .void := by
  rw [declaredTag]
  cases hStart : layout.startingAt? slot with
  | none => rfl
  | some type =>
    have hEnd := hAscending.add_width_le hStart
    have hWidth := type.width_pos
    omega

theorem declaredTag_not_payload (reg : Registry) (layout : Layout FrameType)
    (slot : Nat) :
    ¬ (declaredTag reg layout slot).hasPayloadKind = true := by
  unfold declaredTag
  cases layout.startingAt? slot with
  | none => exact Bool.false_ne_true
  | some type => exact reg.tagOfFrame_not_payload type

theorem Frame.isWellFormed_entry (hFrame : frame.isWellFormed = true)
    {entry : Nat × FrameType} (hEntry : entry ∈ frame.locals.entries) :
    entry.2.isWellFormed = true := by
  rw [isWellFormed, all_append, Bool.and_eq_true] at hFrame
  exact all_eq_true.mp hFrame.1 _ (mem_map_of_mem hEntry)

theorem Frame.isWellFormed_local (hFrame : frame.isWellFormed = true)
    (hStart : frame.locals.startingAt? slot = some type) :
    type.isWellFormed = true :=
  isWellFormed_entry hFrame (Layout.mem_of_startingAt? hStart)

/- What takes two slots is of a type that takes two. -/
theorem Registry.width_of_isSrcWide (reg : Registry)
    (hType : type.isWellFormed = true)
    (hWide : (reg.tagOfFrame type).isSrcWide = true) :
    width type = 2 := by
  cases type with
  | long | double => rfl
  | object type =>
    cases type with
    | object name =>
      rw [tagOfFrame, tagOfRef] at hWide
      rcases reg.tagOfClass_cases name with hTag | ⟨cls, info, hTag, _⟩ <;>
        rw [hTag] at hWide <;> cases hWide
    | array more element =>
      have hDepth : (RefType.array more element).depth ≤ 255 := by
        simpa [FrameType.isWellFormed] using hType
      have hArray : 0 < (reg.tagOfRef (.array more element)).depth :=
        (Registry.tagOfRef_array hDepth).2
      simp [tagOfFrame, Tag.isSrcWide, Tag.isArray, hArray] at hWide
  | _ => cases hWide

theorem Registry.srcWidth_tagOfFrame (reg : Registry)
    (hType : type.isWellFormed = true) :
    (reg.tagOfFrame type).srcWidth = width type := by
  by_cases hWide : (reg.tagOfFrame type).isSrcWide = true
  · rw [reg.width_of_isSrcWide hType hWide]
    exact (Tag.srcWidth_eq_two _).mpr hWide
  · rw [Tag.srcWidth_eq_one hWide]
    cases type <;> first | rfl | exact absurd rfl hWide

namespace Tag

variable {declared tag : Tag} {current : Tag}

/- What is agreed on suits what is declared. -/
theorem suits_merge (hCurrent : current.isPayloadArray = false)
    (hDeclared : ¬ declared.hasPayloadKind = true)
    (hVoid : declared.isVoid = true → declared = .void) (payloadFits : Bool) :
    declared.Suits (current.merge declared payloadFits) := by
  unfold merge
  split
  · rename_i hNone
    exact .inl (hVoid hNone).symm
  split
  · exact .inl rfl
  split
  · split
    · rename_i hReference
      exact .inr ⟨(Bool.and_eq_true_iff.mp hReference).1, rfl⟩
    · exact .inl rfl
  split
  · rename_i hValue
    split
    · rename_i hSame
      rcases current with ⟨kind, depth⟩
      rcases declared with ⟨declaredKind, declaredDepth⟩
      cases kind <;> cases declaredKind <;>
        simp_all [isValue, class?, Suits, isPayloadArray, hasPayloadKind, isArray,
          isReference, hasReferenceKind, payloadOf]
    · exact .inl rfl
  split
  · rename_i hSame
    refine .inl ?_
    rcases current with ⟨kind, depth⟩
    rcases declared with ⟨declaredKind, declaredDepth⟩
    rw [Tag.mk.injEq]
    exact hSame
  · exact .inl rfl

theorem payloadOf_of_isReference (hReference : tag.isReference = true) :
    ∃ cls, tag.kind = .reference cls ∧ tag.payloadOf = ⟨.payload cls, tag.depth⟩ := by
  rcases tag with ⟨kind, depth⟩
  cases kind <;> first | cases hReference | exact ⟨_, rfl, rfl⟩

/- A tag that is agreed on is void only if it is the void tag itself. -/
theorem merge_eq_void {payloadFits : Bool}
    (hMerged : (current.merge declared payloadFits).isVoid = true) :
    current.merge declared payloadFits = .void := by
  unfold merge at hMerged ⊢
  grind [payloadOf_of_isReference, isVoid]

/- A suitable tag is void exactly if the declared one is. -/
theorem Suits.isVoid_eq (hSuits : declared.Suits tag) :
    tag.isVoid = declared.isVoid := by
  rcases hSuits with rfl | ⟨hReference, rfl⟩
  · rfl
  · rcases declared with ⟨kind, depth⟩
    cases kind <;> first | cases hReference | rfl

/- It takes two slots exactly if the declared one does. -/
theorem Suits.isSrcWide_eq (hSuits : declared.Suits tag) :
    tag.isSrcWide = declared.isSrcWide := by
  rcases hSuits with rfl | ⟨hReference, rfl⟩
  · rfl
  · rcases declared with ⟨kind, depth⟩
    cases kind <;> first | cases hReference | rfl

theorem Suits.not_payloadArray (hSuits : declared.Suits tag)
    (hDeclared : ¬ declared.hasPayloadKind = true) :
    tag.isPayloadArray = false := by
  rcases hSuits with rfl | ⟨hReference, rfl⟩
  · simp [isPayloadArray, hDeclared]
  · rcases declared with ⟨kind, depth⟩
    cases kind <;>
      simp_all [isReference, hasReferenceKind, isArray, isPayloadArray, payloadOf]

end Tag

-- Narrowed locals

namespace SlotMap.Placed

variable {plan : Array Nat} {map : SlotMap} {slot : Nat}
variable {entries : List (Nat × FrameType)} {count cells : Nat}
variable {after : SlotMap}

section

variable (hPlaced : Placed plan map) (hHead : map.isTail slot = false)
include hPlaced hHead

/- A variable that is put into the map only affects itself and the next slot. -/
theorem tagAt_put (tag : Tag) (name : Option String) (other : Nat) :
    (map.withCells (stored map slot tag name)).tagAt other = if slot = other then tag
      else if slot + 1 = other ∧ tag.isSrcWide = true then .void
      else map.tagAt other := by
  rw [tagAt_eq]
  change tagIn (stored map slot tag name) other = _
  rw [tagIn_stored hPlaced.cells.paired]
  simp [hHead]

theorem tagAt_kill (other : Nat) :
    (map.kill slot).tagAt other = if slot = other then .void else map.tagAt other := by
  rw [tagAt_eq]
  change tagIn (SlotMap.detach map.cells slot) other = _
  rw [tagIn_detach hPlaced.cells.paired]
  have hContent : contentAt map.cells slot ≠ some .tail := by
    rw [isTail, beq_eq_false_iff_ne] at hHead
    exact hHead
  simp [hContent, tagAt_eq]

/-
  A slot that is narrowed gets the merged tag. Slots before it
  keep their tags, and later ones keep them or become free.
-/
structure NarrowedAt (map : SlotMap) (slot : Nat) (tag : Tag)
    (after : SlotMap) : Prop where
  here : after.tagAt slot = tag
  before : ∀ other < slot, after.tagAt other = map.tagAt other
  behind : ∀ other, slot < other → after.tagAt other = map.tagAt other ∨ after.tagAt other = .void

theorem narrowedAt_put (tag : Tag) (name : Option String) :
    NarrowedAt map slot tag (map.withCells (stored map slot tag name)) where
  here := by simp [hPlaced.tagAt_put hHead]
  before := by
    intro other hBefore
    rw [hPlaced.tagAt_put hHead, if_neg (by omega), if_neg (by omega)]
  behind := by
    intro other hBehind
    rw [hPlaced.tagAt_put hHead, if_neg (by omega)]
    split
    · exact .inr rfl
    · exact .inl rfl

theorem narrowedAt {declared : Tag} (hDeclared : ¬ declared.hasPayloadKind = true) :
    NarrowedAt map slot
      ((map.tagAt slot).merge declared (2 ≤ map.room slot))
      (map.narrowAt slot declared) := by
  unfold SlotMap.narrowAt
  rw [if_neg (by simp [hHead])]
  simp only []
  split
  · rename_i hSame
    exact ⟨hSame.symm, fun _ _ => rfl, fun _ _ => .inl rfl⟩
  rename_i hChanged
  split
  · rename_i hFree
    rw [Tag.merge_eq_void hFree]
    constructor
    · simp [hPlaced.tagAt_kill hHead]
    · intro other hBefore
      rw [hPlaced.tagAt_kill hHead, if_neg (by omega)]
    · intro other hBehind
      rw [hPlaced.tagAt_kill hHead, if_neg (by omega)]
      exact .inl rfl
  · have hRoom :=
      hPlaced.merge_room (Tag.not_payload_of_kind hDeclared) hChanged
    rw [hPlaced.put_eq _ hRoom]
    exact hPlaced.narrowedAt_put hHead _ _

end

/- A map after the slots before one were narrowed to what is good there. -/
structure Narrowing (plan : Array Nat) (good : Nat → Tag → Prop) (count : Nat)
    (map after : SlotMap) : Prop where
  placed : Placed plan after
  done : ∀ slot < count, good slot (after.tagAt slot)
  rest : ∀ slot, count ≤ slot → after.tagAt slot = map.tagAt slot ∨ after.tagAt slot = .void

variable {reg : Registry} {frame : Frame} {good : Nat → Tag → Prop}

theorem tagAt_of_isTail (hTail : map.isTail slot = true) : map.tagAt slot = .void := by
  rw [isTail, beq_iff_eq, content?_eq] at hTail
  rw [tagAt_eq, tagIn_of_content hTail]
  rfl

theorem Narrowing.step (hTail : after.isTail count = true → good count .void)
    (hMerge : ∀ current, current = map.tagAt count ∨ current = .void →
      good count (current.merge (declaredTag reg frame.locals count)
        (2 ≤ Unboxing.plannedRoom plan count)))
    (hNarrowing : Narrowing plan good count map after) :
    Narrowing plan good (count + 1) map
      (after.narrowAt count (declaredTag reg frame.locals count)) := by
  have hDeclared := declaredTag_not_payload reg frame.locals count
  have hPlaced : Placed plan
      (after.narrowAt count (declaredTag reg frame.locals count)) :=
    hNarrowing.placed.narrowAt (Tag.not_payload_of_kind hDeclared)
  cases hHead : after.isTail count with
  | true =>
    have hSame : after.narrowAt count (declaredTag reg frame.locals count) = after := by
      rw [SlotMap.narrowAt, if_pos hHead]
    rw [hSame]
    refine ⟨hNarrowing.placed, ?_, fun slot hSlot =>
      hNarrowing.rest slot (by omega)⟩
    intro slot hSlot
    rcases Nat.lt_succ_iff_lt_or_eq.mp hSlot with hBefore | rfl
    · exact hNarrowing.done slot hBefore
    · rw [tagAt_of_isTail hHead]
      exact hTail hHead
  | false =>
    have hAt := hNarrowing.placed.narrowedAt hHead hDeclared
    refine ⟨hPlaced, ?_, ?_⟩
    · intro slot hSlot
      rcases Nat.lt_succ_iff_lt_or_eq.mp hSlot with hBefore | rfl
      · rw [hAt.before slot hBefore]
        exact hNarrowing.done slot hBefore
      · rw [hAt.here, hNarrowing.placed.room_eq]
        exact hMerge _ (hNarrowing.rest slot (Nat.le_refl _))
    · intro slot hSlot
      rcases hAt.behind slot (by omega) with hSame | hFree
      · rw [hSame]
        exact hNarrowing.rest slot (by omega)
      · exact .inr hFree

/- Every tag of a narrowed map is what narrowing makes of one. -/
theorem good_narrow (hPlaced : Placed plan map) (good : Nat → Tag → Prop)
    (hTail : ∀ count after, Narrowing plan good count map after →
      after.isTail count = true → good count .void)
    (hMerge : ∀ slot current, current = map.tagAt slot ∨ current = .void →
      good slot (current.merge (declaredTag reg frame.locals slot)
        (2 ≤ Unboxing.plannedRoom plan slot)))
    (hBeyond : ∀ slot, frame.locals.cells ≤ slot → good slot .void)
    (slot : Nat) :
    good slot ((map.narrow reg frame).tagAt slot) := by
  have hFold (count : Nat) : Narrowing plan good count map
      ((List.range count).foldl
        (fun map slot => map.narrowAt slot (declaredTag reg frame.locals slot)) map) := by
    induction count with
    | zero =>
      exact ⟨hPlaced, fun slot hSlot => absurd hSlot (Nat.not_lt_zero slot), fun _ _ => .inl rfl⟩
    | succ count ih =>
      rw [range_succ, foldl_append]
      exact ih.step (hTail count _ ih) (hMerge count)
  have hAll : Narrowing plan good (max map.size frame.locals.cells) map
      (map.narrow reg frame) := hFold _
  by_cases hInside : slot < max map.size frame.locals.cells
  · exact hAll.done slot hInside
  · have hOutside : map.size ≤ slot ∧ frame.locals.cells ≤ slot := by omega
    have hFree : map.tagAt slot = .void := tagIn_of_size_le hOutside.1
    have hVoid := hAll.rest slot (by omega)
    rw [hFree, or_self] at hVoid
    rw [hVoid]
    exact hBeyond slot hOutside.2

/- Nothing is declared for the second half of a variable. -/
theorem declaredTag_tail (hFrame : frame.isWellFormed = true)
    (hAscending : frame.locals.Ascending)
    (hNarrowing : Narrowing plan
      (fun slot tag => (declaredTag reg frame.locals slot).Suits tag) count map after)
    (hTail : after.isTail count = true) :
    declaredTag reg frame.locals count = .void := by
  cases count with
  | zero =>
    rw [hNarrowing.placed.isTail_zero] at hTail
    cases hTail
  | succ slot =>
    have hWide := (hNarrowing.placed.isTail_iff slot).mp hTail
    rw [(hNarrowing.done slot (Nat.lt_succ_self slot)).isSrcWide_eq, declaredTag] at hWide
    cases hStart : frame.locals.startingAt? slot with
    | none =>
      rw [hStart] at hWide
      cases hWide
    | some type =>
      rw [hStart] at hWide
      have hType := Frame.isWellFormed_local hFrame hStart
      have hWidth := reg.width_of_isSrcWide hType hWide
      rw [declaredTag, hAscending.startingAt?_covered hStart
        (Nat.lt_succ_self slot) (by omega)]
      rfl

/- Every tag of a narrowed map suits what the frame declares. -/
theorem suits_narrow (hPlaced : Placed plan map) (hFrame : frame.isWellFormed = true)
    (hAscending : frame.locals.Ascending)
    (hLocals : ∀ slot, (map.tagAt slot).isPayloadArray = false) (slot : Nat) :
    (declaredTag reg frame.locals slot).Suits
      ((map.narrow reg frame).tagAt slot) := by
  apply hPlaced.good_narrow fun slot tag =>
    (declaredTag reg frame.locals slot).Suits tag
  · intro count after hNarrowing hTail
    rw [declaredTag_tail hFrame hAscending hNarrowing hTail]
    exact .inl rfl
  · intro slot current hCurrent
    have hDeclared := declaredTag_not_payload reg frame.locals slot
    refine Tag.suits_merge ?_ hDeclared declaredTag_void _
    rcases hCurrent with rfl | rfl
    · exact hLocals slot
    · rfl
  · intro slot hBeyond
    rw [hAscending.declaredTag_beyond reg hBeyond]
    exact .inl rfl

-- Declared locals

/- The map with a local of a frame. -/
def declareLocal (reg : Registry) (map : SlotMap)
    (entry : Nat × FrameType) : SlotMap :=
  let tag := reg.tagOfFrame entry.2
  if tag.isVoid then
    map
  else
    match map.put entry.1 tag none with
    | some (_, map) => map
    | none => map

/- The tags of a map are those that some locals declare. -/
structure Declares (plan : Array Nat) (reg : Registry) (layout : Layout FrameType)
    (map : SlotMap) : Prop where
  placed : Placed plan map
  tags : ∀ slot, map.tagAt slot = declaredTag reg layout slot

/- Nothing starts where all that is declared has ended. -/
theorem startingAt?_beyond {other : Nat}
    (hBefore : ∀ entry ∈ entries, entry.1 + width entry.2 ≤ slot) (hOther : slot ≤ other)
    (cells : Nat) :
    (Layout.mk entries cells).startingAt? other = none := by
  cases hStart : (Layout.mk entries cells).startingAt? other with
  | none => rfl
  | some found =>
    have hEnd := hBefore _ (Layout.mem_of_startingAt? hStart)
    have hWidth := found.width_pos
    simp only at hEnd
    omega

section

variable (hDeclares : Declares plan reg ⟨entries, cells⟩ map)
variable (hWellFormed : ∀ entry ∈ entries, entry.2.isWellFormed = true)
include hDeclares hWellFormed

/- The first slot after all that is declared is not the half of a value. -/
theorem Declares.isTail_eq (hBefore : ∀ entry ∈ entries, entry.1 + width entry.2 ≤ slot) :
    map.isTail slot = false := by
  cases slot with
  | zero => exact hDeclares.placed.isTail_zero
  | succ slot =>
    rw [Bool.eq_false_iff]
    intro hTail
    have hWide := (hDeclares.placed.isTail_iff slot).mp hTail
    rw [hDeclares.tags, declaredTag] at hWide
    cases hStart : (Layout.mk entries cells).startingAt? slot with
    | none =>
      rw [hStart] at hWide
      cases hWide
    | some found =>
      rw [hStart] at hWide
      have hMember := Layout.mem_of_startingAt? hStart
      have hEnd := hBefore _ hMember
      have hWidth := reg.width_of_isSrcWide (hWellFormed _ hMember) hWide
      simp only at hEnd hWidth
      omega

theorem Declares.step (hBefore : ∀ entry ∈ entries, entry.1 + width entry.2 ≤ slot) :
    Declares plan reg ⟨entries ++ [(slot, type)], cells⟩
      (declareLocal reg map (slot, type)) := by
  have hFree (other : Nat) (hOther : slot ≤ other) : map.tagAt other = .void := by
    rw [hDeclares.tags, declaredTag, startingAt?_beyond hBefore hOther]
    rfl
  have hDeclared (other : Nat) :
      declaredTag reg ⟨entries ++ [(slot, type)], cells⟩ other =
        if slot = other then reg.tagOfFrame type else map.tagAt other := by
    rw [declaredTag, Layout.startingAt?_concat]
    split
    · rename_i hSame
      subst hSame
      rw [startingAt?_beyond hBefore (Nat.le_refl _)]
      rfl
    · rw [Option.or_none, hDeclares.tags]
      rfl
  unfold declareLocal
  simp only []
  split
  · rename_i hVoid
    refine ⟨hDeclares.placed, fun other => ?_⟩
    rw [hDeclared]
    split
    · rename_i hSame
      subst hSame
      rw [hFree slot (Nat.le_refl _), Registry.tagOfFrame_void hVoid]
      rfl
    · rfl
  · have hRoom : (reg.tagOfFrame type).isPayload = true →
        2 ≤ Unboxing.plannedRoom plan slot := fun hPayload =>
      absurd hPayload (Tag.not_payload_of_kind (reg.tagOfFrame_not_payload type))
    rw [hDeclares.placed.put_eq _ hRoom]
    refine ⟨hDeclares.placed.withCells (hDeclares.placed.stored_placed hRoom), fun other => ?_⟩
    rw [hDeclared, hDeclares.placed.tagAt_put (hDeclares.isTail_eq hWellFormed hBefore)]
    split
    · rfl
    · split
      · rename_i hNext
        rw [hFree other (by omega)]
      · rfl

end

/- The locals that a frame declares have the declared tags. -/
theorem tagAt_declaredLocals (hPlaced : Placed plan map)
    (hFrame : frame.isWellFormed = true) (hAscending : frame.locals.Ascending)
    (slot : Nat) :
    (Simulation.declaredLocals reg frame map).tagAt slot =
      declaredTag reg frame.locals slot := by
  have hFold (rest done : List (Nat × FrameType)) (map : SlotMap)
      (hEntries : done ++ rest = frame.locals.entries)
      (hDeclares : Declares plan reg ⟨done, frame.locals.cells⟩ map) :
      Declares plan reg frame.locals
        (rest.foldl (declareLocal reg) map) := by
    induction rest generalizing done map with
    | nil =>
      rw [append_nil] at hEntries
      subst hEntries
      exact hDeclares
    | cons entry rest ih =>
      apply ih (done ++ [entry])
      · rw [append_assoc]
        exact hEntries
      · apply hDeclares.step
        · intro other hOther
          apply Frame.isWellFormed_entry hFrame
          rw [← hEntries]
          exact mem_append_left _ hOther
        · intro other hOther
          have hApart := hAscending.apart
          rw [← hEntries] at hApart
          exact (pairwise_append.mp hApart).2.2 other hOther entry
            (mem_cons_self ..)
  have hStart : Declares plan reg ⟨[], frame.locals.cells⟩ map.clear :=
    ⟨hPlaced.clear, fun slot => rfl⟩
  exact (hFold frame.locals.entries [] map.clear rfl hStart).tags slot

end SlotMap.Placed

-- Stacks

/- The tags of a stack suit the types that a frame declares. -/
def StackSuits (reg : Registry) (frame : Frame) (tags : List Tag) : Prop :=
  Forall₂ (fun type tag => (reg.tagOfFrame type).Suits tag)
    frame.stack.reverse tags

theorem StackSnapshot.size_narrow (snapshot : StackSnapshot) (reg : Registry)
    (frame : Frame) :
    (snapshot.narrow reg frame).size = snapshot.size := by
  unfold narrow
  split
  · simp [mapTags, ofEntries, size]
  · rfl

/- Every tag of a narrowed stack of the right size suits what is declared. -/
theorem StackSnapshot.suits_narrow {snapshot : StackSnapshot}
    (hEntries : ∀ entry ∈ snapshot.entries, entry.tag.isPayloadArray = false)
    (hSize : frame.stack.length = (snapshot.narrow reg frame).size) :
    StackSuits reg frame
      ((snapshot.narrow reg frame).entries.map Entry.tag) := by
  rw [size_narrow] at hSize
  unfold narrow
  rw [if_pos hSize]
  apply List.forall₂_iff_get.mpr
  refine ⟨by simpa [mapTags, ofEntries, size] using hSize, ?_⟩
  intro depth hType hTag
  have hDepth : depth < snapshot.entries.length := by
    simpa [mapTags, ofEntries] using hTag
  have hHeight : snapshot.size - 1 - depth < frame.stack.length := by
    rw [length_reverse] at hType
    omega
  simp only [mapTags, ofEntries, get_eq_getElem, getElem_map,
    getElem_mapIdx, getElem_reverse, ← hSize] at hHeight ⊢
  rw [getElem?_eq_getElem hHeight]
  exact Tag.suits_merge (hEntries _ (getElem_mem hDepth))
    (reg.tagOfFrame_not_payload _)
    (fun hVoid => by rw [Registry.tagOfFrame_void hVoid]; rfl) false

theorem entries_declaredStack (reg : Registry) (frame : Frame)
    (stack : OperandStack) :
    (Simulation.declaredStack reg frame stack).entries =
      frame.stack.reverse.map fun type => ⟨reg.tagOfFrame type, none⟩ := by
  have hFold (types : List FrameType) (stack : OperandStack) :
      (types.foldl (fun stack type => stack.push (reg.tagOfFrame type) none)
        stack).entries = (types.reverse.map fun type => ⟨reg.tagOfFrame type, none⟩) ++
          stack.entries := by
    induction types generalizing stack with
    | nil => rfl
    | cons type types ih =>
      rw [foldl_cons, ih]
      simp [OperandStack.push]
  rw [Simulation.declaredStack, hFold]
  simp [OperandStack.clear]

-- Parameters

namespace SlotMap.Placed

theorem tagAt_add (map : SlotMap) (tag : Tag) (name : Option String) (other : Nat) :
    (map.add tag name).2.tagAt other = if map.size = other then tag else map.tagAt other := by
  have hOutside : map.tagAt (map.size + 1) = .void := by
    simp [SlotMap.tagAt, SlotMap.content?, SlotMap.size]
  unfold SlotMap.add SlotMap.withCells
  simp only []
  split
  · show Option.getD (Option.map SlotContent.tag (Option.map SlotCell.content
      ((map.cells.push _).push _)[other]?)) .void = _
    rw [Array.getElem?_push, Array.getElem?_push, Array.size_push]
    by_cases hTail : other = map.size + 1
    · subst hTail
      rw [if_pos (show map.size + 1 = map.cells.size + 1 from rfl), if_neg (by omega), hOutside]
      rfl
    · rw [if_neg (show ¬ other = map.cells.size + 1 from hTail)]
      by_cases hHead : other = map.size
      · rw [if_pos (show other = map.cells.size from hHead), if_pos hHead.symm]
        rfl
      · rw [if_neg (show ¬ other = map.cells.size from hHead),
          if_neg (fun hSame => hHead hSame.symm)]
        rfl
  · show Option.getD (Option.map SlotContent.tag (Option.map SlotCell.content
      (map.cells.push _)[other]?)) .void = _
    rw [Array.getElem?_push]
    by_cases hHead : other = map.size
    · rw [if_pos (show other = map.cells.size from hHead), if_pos hHead.symm]
      rfl
    · rw [if_neg (show ¬ other = map.cells.size from hHead), if_neg (fun hSame => hHead hSame.symm)]
      rfl

theorem size_add (map : SlotMap) (tag : Tag) (name : Option String) :
    (map.add tag name).2.size = map.size + tag.srcWidth := by
  unfold SlotMap.add
  simp only []
  split
  · rename_i hWide
    simp [SlotMap.withCells, SlotMap.size, hWide]
  · rename_i hNarrow
    have hOne : tag.srcWidth = 1 :=
      Tag.srcWidth_eq_one fun hWide => hNarrow ((Tag.srcWidth_eq_two tag).mpr hWide)
    simp [SlotMap.withCells, SlotMap.size, hOne]

variable {plan : Array Nat} {reg : Registry} {layout : Layout FrameType}
variable {map : SlotMap}

/- A parameter that is added is declared after the others. -/
theorem declaredTag_push (hAscending : layout.Ascending) (type : FrameType)
    (other : Nat) :
    declaredTag reg (layout.push type) other =
      if layout.cells = other then reg.tagOfFrame type
      else declaredTag reg layout other := by
  rw [declaredTag, Layout.startingAt?_push]
  split
  · rename_i hSame
    subst hSame
    cases hOld : layout.startingAt? layout.cells with
    | none => rfl
    | some old =>
      have hEnd := hAscending.add_width_le hOld
      have hWidth := old.width_pos
      omega
  · rw [Option.or_none]
    rfl

/- The map that has the parameters of some types. -/
theorem tagAt_addAll {types : List FrameType}
    (hTypes : ∀ type ∈ types, type.isWellFormed = true) (hAscending : layout.Ascending)
    (hSize : map.size = layout.cells)
    (hTags : ∀ slot, map.tagAt slot = declaredTag reg layout slot) (slot : Nat) :
    ((types.map fun type => (reg.tagOfFrame type, (none : Option String))).foldl
        (fun map (tag, name) => (map.add tag name).2) map).tagAt slot =
      declaredTag reg (layout.extend types) slot := by
  induction types generalizing map layout with
  | nil => exact hTags slot
  | cons type types ih =>
    apply ih (forall_mem_cons.mp hTypes).2
      (hAscending.push type)
    · rw [size_add, hSize, reg.srcWidth_tagOfFrame (hTypes type (mem_cons_self ..))]
      rfl
    · intro other
      rw [tagAt_add, hSize, hTags, declaredTag_push hAscending]

end SlotMap.Placed

theorem Registry.tagOfFrame_ofFieldType (reg : Registry) (type : FieldType) :
    reg.tagOfFrame (.ofFieldType type) = reg.tagOf type := by
  cases type with
  | base type => cases type <;> rfl
  | ref type => rfl

namespace Method

variable {method : Method}

/- The receiver and parameters of a method that does not construct. -/
theorem initialVariables_eq (hMethod : method.isConstructor = false) (reg : Registry)
    (owner : ClassName) :
    method.initialVariables reg owner =
      (method.initialFrame owner).locals.elements.map fun type =>
        (reg.tagOfFrame type, none) := by
  unfold initialVariables initialFrame
  rw [Layout.elements_ofList, map_append, map_map]
  simp only []
  congr 1
  · rw [hMethod]
    cases method.isStatic <;> rfl
  · apply map_congr_left
    intro type _
    exact congrArg (·, none) (reg.tagOfFrame_ofFieldType type).symm

/- The locals at the start of a body have the tags that its types declare. -/
theorem tagAt_initialLocals {owner : ClassName} (hMethod : method.isConstructor = false)
    (hFrame : (method.initialFrame owner).isWellFormed = true) (body : Body)
    (slot : Nat) :
    (method.initialLocals reg owner body).tagAt slot =
      declaredTag reg (method.initialFrame owner).locals slot := by
  have hTypes : ∀ type ∈ (method.initialFrame owner).locals.elements, type.isWellFormed = true := by
    rw [Frame.isWellFormed, all_append, Bool.and_eq_true] at hFrame
    exact all_eq_true.mp hFrame.1
  have hLocals : (method.initialFrame owner).locals =
      .ofList (method.initialFrame owner).locals.elements := by
    rw [initialFrame, Layout.elements_ofList]
  rw [initialLocals, initialVariables_eq hMethod, hLocals, Layout.elements_ofList]
  exact SlotMap.Placed.tagAt_addAll hTypes .empty rfl (fun _ => rfl) slot

end Method

end Unboxing
