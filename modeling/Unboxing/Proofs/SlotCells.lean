import Unboxing.MethodUnboxing

/-
  The plan of a method body, which gives each slot a room and an
  address, and the cells of a map of local variables: what
  freeing and storing variables does to the content and the room
  of every slot. A variable that takes two slots has its second
  half right after it, and nothing else is a second half.

  Main declarations:
    * `plannedRoom`
    * `planned`
    * `plannedRoom_slotPlan`
    * `Paired`
    * `Placed.stored`
    * `contentAt_stored`
    * `paired_stored`
-/

namespace Unboxing

open List

variable {first second : Nat}

-- Rooms and addresses

/- The room that a plan gives a slot, at least one. -/
def plannedRoom (plan : Array Nat) (slot : Nat) : Nat :=
  max ((plan[slot]?).getD 1) 1

/- A slot has room for a value, which only a payload may lack. -/
abbrev Tag.HasRoom (tag : Tag) (plan : Array Nat) (slot : Nat) : Prop :=
  tag.isPayload = true → 2 ≤ plannedRoom plan slot

/- The sum of the rooms that a plan gives the slots before one. -/
def planned (plan : Array Nat) (slot : Nat) : Nat :=
  total ((List.range slot).map (plannedRoom plan))

theorem plannedRoom_pos (plan : Array Nat) (slot : Nat) :
    0 < plannedRoom plan slot := by
  unfold plannedRoom
  omega

@[simp] theorem SlotMap.plannedRoom_eq (map : SlotMap) (slot : Nat) :
    map.plannedRoom slot = Unboxing.plannedRoom map.plan slot :=
  rfl

section

variable (plan : Array Nat)

@[simp] theorem planned_zero : planned plan 0 = 0 :=
  rfl

theorem planned_succ (slot : Nat) :
    planned plan (slot + 1) = planned plan slot + plannedRoom plan slot := by
  simp [planned, range_succ]

/- The rooms from a slot on lead from its address to a later one. -/
theorem planned_add (slot width : Nat) :
    planned plan (slot + width) = planned plan slot +
        total ((List.range' slot width).map (plannedRoom plan)) := by
  induction width with
  | zero => simp
  | succ width ih =>
    rw [← Nat.add_assoc, planned_succ, ih, range'_1_concat]
    simp only [map_append, map_cons, map_nil, total_append, total_cons, total_nil]
    omega

theorem planned_mono (hLe : first ≤ second) :
    planned plan first ≤ planned plan second := by
  obtain ⟨width, rfl⟩ := Nat.exists_eq_add_of_le hLe
  rw [planned_add]
  omega

/- Some slots have at least one cell each, and exactly that if all rooms are one. -/
theorem planned_add_width (slot width : Nat) :
    planned plan slot + width ≤ planned plan (slot + width) ∧
      (planned plan slot + width = planned plan (slot + width) ↔
        ∀ other, slot ≤ other → other < slot + width → plannedRoom plan other = 1) := by
  induction width with
  | zero => exact ⟨Nat.le_refl _, fun _ _ _ _ => by omega, fun _ => rfl⟩
  | succ width ih =>
    have hRoom := plannedRoom_pos plan (slot + width)
    rcases ih with ⟨hLe, hSame⟩
    rw [← Nat.add_assoc, ← Nat.add_assoc, planned_succ]
    refine ⟨by omega, fun hEnd other hFrom hBelow => ?_, fun hOne => ?_⟩
    · rcases Nat.lt_succ_iff_lt_or_eq.mp hBelow with hBefore | rfl
      · exact hSame.mp (by omega) other hFrom hBefore
      · omega
    · have hBefore := hSame.mpr fun other hFrom hBelow => hOne other hFrom (by omega)
      have hLast := hOne (slot + width) (by omega) (by omega)
      omega

/- No slot moves down. -/
theorem le_planned (slot : Nat) : slot ≤ planned plan slot := by
  simpa using (planned_add_width plan 0 slot).1

end

-- The plan of a body

/- Room for a payload in a slot leaves the other slots as they were. -/
theorem plannedRoom_planPayload (plan : Array Nat) (slot other : Nat) :
    plannedRoom (planPayload plan slot) other =
      if other = slot then 2 else plannedRoom plan other := by
  unfold plannedRoom planPayload
  rw [Array.set!_eq_setIfInBounds, Array.getElem?_setIfInBounds]
  by_cases hSame : slot = other
  · subst hSame
    have hInside :
        slot < (plan ++ Array.replicate (slot + 1 - plan.size) 1).size := by
      simp only [Array.size_append, Array.size_replicate]
      omega
    rw [if_pos rfl, if_pos hInside, if_pos rfl]
    rfl
  · have hOther : ¬ other = slot := fun hEqual => hSame hEqual.symm
    simp only [hSame, hOther, if_false]
    congr 1
    rw [Array.getElem?_append]
    split
    · rfl
    · rename_i hOutside
      rw [Array.getElem?_replicate]
      have hNone : plan[other]? = none :=
        Array.getElem?_eq_none (by omega)
      rw [hNone]
      split <;> rfl

/- The room after an element of the body was looked at. -/
theorem plannedRoom_planNode (parameterCells : Nat) (plan : Array Nat) (node : Node)
    (slot : Nat) :
    plannedRoom (planNode parameterCells plan node) slot =
      if parameterCells ≤ slot ∧ node = .insn (.store .reference slot) then
        2
      else
        plannedRoom plan slot := by
  unfold planNode
  split
  · rename_i stored
    by_cases hParameter : parameterCells ≤ stored
    · rw [if_pos hParameter, plannedRoom_planPayload]
      by_cases hSame : slot = stored
      · subst hSame
        simp [hParameter]
      · have hOther : ¬ stored = slot := fun hEqual => hSame hEqual.symm
        simp [hSame, hOther]
    · rw [if_neg hParameter, if_neg]
      rintro ⟨hLe, hNode⟩
      cases hNode
      exact hParameter hLe
  · rename_i hNode
    rw [if_neg]
    exact fun hStore => hNode slot hStore.2

/-
  A slot gets room for a payload exactly if it is no parameter
  and a reference is stored into it somewhere in the body.
-/
theorem plannedRoom_slotPlan (body : Body) (parameterCells slot : Nat) :
    plannedRoom (slotPlan body parameterCells) slot = if parameterCells ≤ slot ∧
          .insn (.store .reference slot) ∈ body.nodes then 2 else 1 := by
  have hFold (nodes : List Node) (plan : Array Nat) :
      plannedRoom (nodes.foldl (planNode parameterCells) plan) slot =
        if parameterCells ≤ slot ∧ .insn (.store .reference slot) ∈ nodes then
          2
        else
          plannedRoom plan slot := by
    induction nodes generalizing plan with
    | nil => simp
    | cons node nodes ih =>
      rw [foldl_cons, ih, plannedRoom_planNode]
      by_cases hParameter : parameterCells ≤ slot
      · by_cases hLater : .insn (.store .reference slot) ∈ nodes
        · simp [hParameter, hLater]
        · simp [hParameter, hLater, eq_comm]
      · simp [hParameter]
  unfold slotPlan
  rw [hFold]
  congr 1
  unfold plannedRoom
  rw [Array.getElem?_replicate]
  split <;> rfl

/- Parameters stay at their slots. -/
theorem planned_slotPlan_of_le (body : Body) {parameterCells slot : Nat}
    (hLe : slot ≤ parameterCells) :
    planned (slotPlan body parameterCells) slot = slot := by
  induction slot with
  | zero => rfl
  | succ slot ih =>
    rw [planned_succ, ih (by omega), plannedRoom_slotPlan]
    have hBefore : ¬ parameterCells ≤ slot := by omega
    simp [hBefore]

namespace Tag

variable {tag : Tag}

theorem srcWidth_eq_two (tag : Tag) : tag.srcWidth = 2 ↔ tag.isSrcWide = true := by
  unfold srcWidth
  split <;> simp_all

theorem srcWidth_eq_one (hNarrow : ¬ tag.isSrcWide = true) : tag.srcWidth = 1 := by
  unfold srcWidth
  rw [if_neg hNarrow]

theorem srcWidth_le_two (tag : Tag) : tag.srcWidth ≤ 2 := by
  unfold srcWidth
  split <;> omega

theorem dstWidth_le_two (tag : Tag) : tag.dstWidth ≤ 2 := by
  unfold dstWidth
  split <;> omega

theorem not_payload_of_wide (hWide : tag.isSrcWide = true) :
    ¬ tag.isPayload = true := by
  obtain ⟨kind, depth⟩ := tag
  cases kind <;>
    simp_all [isSrcWide, isPayload, hasPayloadKind]

theorem not_payload_of_kind (hKind : ¬ tag.hasPayloadKind = true) :
    ¬ tag.isPayload = true := by
  unfold isPayload
  rw [Bool.and_eq_true]
  exact fun hPayload => hKind hPayload.1

/- Of the values in one cell, only payloads get wider. -/
theorem dstWidth_of_not_payload (hNarrow : ¬ tag.isSrcWide = true)
    (hNoPayload : ¬ tag.isPayload = true) :
    tag.dstWidth = 1 := by
  obtain ⟨kind, depth⟩ := tag
  cases kind <;> by_cases hArray : 0 < depth <;>
    simp_all [dstWidth, isDstWide, isSrcWide, isPayload, hasPayloadKind, isArray]

/- A room is enough for all values in one slot but payloads. -/
theorem enough_of_payload {room : Nat} (hPayload : tag.isPayload = true → 2 ≤ room)
    (hRoom : 0 < room) :
    tag.isSrcWide = true ∨ tag.dstWidth ≤ room := by
  by_cases hWide : tag.isSrcWide = true
  · exact .inl hWide
  · right
    by_cases hTwo : tag.isPayload = true
    · exact Nat.le_trans tag.dstWidth_le_two (hPayload hTwo)
    · rw [dstWidth_of_not_payload hWide hTwo]
      exact hRoom

/- Of what was a reference, only payloads take two cells. -/
theorem dstWidth_of_reference (hReference : tag.isSrcReference = true) :
    tag.dstWidth = if tag.isPayload then 2 else 1 := by
  rcases tag with ⟨kind, depth⟩
  by_cases hArray : 0 < depth
  · simp [dstWidth, isDstWide, isPayload, isArray, hArray]
  · cases kind <;>
      simp_all [dstWidth, isDstWide, isPayload, hasPayloadKind, isArray, isSrcReference]

theorem dstWidth_of_isPayload (hPayload : tag.isPayload = true) : tag.dstWidth = 2 := by
  have hKind : tag.hasPayloadKind = true := (Bool.and_eq_true_iff.mp hPayload).1
  rw [dstWidth_of_reference ?_, if_pos hPayload]
  rcases tag with ⟨kind, depth⟩
  cases kind <;> cases hKind
  simp [isSrcReference]

end Tag

namespace SlotContent

/- Whether a variable that takes two slots starts here. -/
def isWide : SlotContent → Bool
  | .head tag _ => tag.isSrcWide
  | .tail => false

section

variable (name : String) (content : SlotContent)

@[simp] theorem tag_forget : (content.forget name).tag = content.tag := by
  cases content <;> rfl

@[simp] theorem isWide_forget : (content.forget name).isWide = content.isWide := by
  cases content <;> rfl

@[simp] theorem forget_eq_tail : content.forget name = .tail ↔ content = .tail := by
  cases content <;> simp [forget]

end

end SlotContent

namespace SlotMap

variable {cells : Array SlotCell} {slot : Nat} {content : SlotContent}

-- Contents and rooms

/- The content of a slot, if there is a cell for it. -/
def contentAt (cells : Array SlotCell) (slot : Nat) : Option SlotContent :=
  cells[slot]?.map SlotCell.content

/- The room of a slot, if there is a cell for it. -/
def roomAt (cells : Array SlotCell) (slot : Nat) : Option Nat :=
  cells[slot]?.map SlotCell.room

theorem content?_eq (map : SlotMap) (slot : Nat) :
    map.content? slot = contentAt map.cells slot :=
  rfl

theorem contentAt_eq_none (cells : Array SlotCell) (slot : Nat) :
    contentAt cells slot = none ↔ cells.size ≤ slot := by
  simp [contentAt]

theorem lt_size_of_contentAt (hContent : contentAt cells slot = some content) :
    slot < cells.size := by
  refine Nat.lt_of_not_le fun hSize => ?_
  rw [(contentAt_eq_none cells slot).mpr hSize] at hContent
  cases hContent

theorem exists_roomAt (hSlot : slot < cells.size) : ∃ room, roomAt cells slot = some room :=
  ⟨cells[slot].room, by simp [roomAt, hSlot]⟩

section

variable (cells : Array SlotCell) (slot : Nat) (content : SlotContent)

@[simp] theorem contentAt_setContent (other : Nat) :
    contentAt (setContent cells slot content) other = if slot = other then
        (contentAt cells other).map fun _ => content
      else
        contentAt cells other := by
  unfold contentAt setContent
  rw [Array.getElem?_modify]
  split
  · simp only [Option.map_map]
    rfl
  · rfl

@[simp] theorem roomAt_setContent (other : Nat) :
    roomAt (setContent cells slot content) other = roomAt cells other := by
  unfold roomAt setContent
  rw [Array.getElem?_modify]
  split
  · simp only [Option.map_map]
    rfl
  · rfl

@[simp] theorem size_setContent :
    (setContent cells slot content).size = cells.size := by
  simp [setContent]

end

/- The tag of the variable that starts at a slot, void if none does. -/
def tagIn (cells : Array SlotCell) (slot : Nat) : Tag :=
  ((contentAt cells slot).map SlotContent.tag).getD .void

theorem tagAt_eq (map : SlotMap) (slot : Nat) :
    map.tagAt slot = tagIn map.cells slot :=
  rfl

theorem tagIn_of_content (hContent : contentAt cells slot = some content) :
    tagIn cells slot = content.tag := by
  simp [tagIn, hContent]

theorem tagIn_of_size_le (hSize : cells.size ≤ slot) : tagIn cells slot = .void := by
  simp [tagIn, (contentAt_eq_none cells slot).mpr hSize]

theorem lt_size_of_tagIn (hUsed : (tagIn cells slot).isVoid = false) :
    slot < cells.size := by
  refine Nat.lt_of_not_le fun hSize => ?_
  rw [tagIn_of_size_le hSize] at hUsed
  cases hUsed

/- A variable starts where the tag is not void. -/
theorem exists_head (hUsed : (tagIn cells slot).isVoid = false) :
    ∃ name, contentAt cells slot = some (.head (tagIn cells slot) name) := by
  rcases hContent : contentAt cells slot with _ | ⟨tag, name⟩ | _
  · rw [tagIn, hContent] at hUsed
    cases hUsed
  · rw [tagIn_of_content hContent]
    exact ⟨name, rfl⟩
  · rw [tagIn, hContent] at hUsed
    cases hUsed

theorem tagIn_setContent (hSlot : slot < cells.size) (content : SlotContent)
    (other : Nat) :
    tagIn (setContent cells slot content) other =
      if slot = other then content.tag else tagIn cells other := by
  unfold tagIn
  rw [contentAt_setContent]
  by_cases hSame : slot = other
  · subst hSame
    have hSome : contentAt cells slot ≠ none := by
      rw [Ne, contentAt_eq_none]
      omega
    obtain ⟨old, hOld⟩ := Option.ne_none_iff_exists'.mp hSome
    simp [hOld]
  · simp [hSame]

theorem mem_varsOf {tag : Tag} :
    (slot, tag) ∈ varsOf cells ↔ tagIn cells slot = tag ∧ tag.isVoid = false := by
  unfold varsOf tagIn contentAt
  rw [mem_filterMap]
  constructor
  · rintro ⟨⟨cell, place⟩, hCell, hVar⟩
    rw [mem_zipIdx_iff_getElem?] at hCell
    simp only [Array.getElem?_toList] at hCell
    simp only at hVar
    split at hVar
    · cases hVar
    · rename_i hUsed
      cases hVar
      rw [Bool.not_eq_true] at hUsed
      simp [hCell, hUsed]
  · rintro ⟨hTag, hUsed⟩
    cases hCell : cells[slot]? with
    | none =>
      rw [hCell] at hTag
      rw [← hTag] at hUsed
      cases hUsed
    | some cell =>
      simp only [hCell, Option.map_some, Option.getD_some] at hTag
      refine ⟨(cell, slot), ?_, ?_⟩
      · rw [mem_zipIdx_iff_getElem?]
        simpa using hCell
      · simp [hTag, hUsed]

theorem nodup_varsOf (cells : Array SlotCell) :
    ((varsOf cells).map Prod.fst).Nodup := by
  have hSlots (entries : List (SlotCell × Nat)) :
      ((entries.filterMap fun entry =>
        if entry.1.content.tag.isVoid then none
          else some (entry.2, entry.1.content.tag)).map
            Prod.fst).Sublist (entries.map Prod.snd) := by
    induction entries with
    | nil => exact List.Sublist.refl _
    | cons entry entries ih =>
      rcases entry with ⟨cell, slot⟩
      simp only [filterMap_cons, map_cons]
      cases cell.content.tag.isVoid with
      | true => exact ih.trans (sublist_cons_self ..)
      | false => exact ih.cons_cons slot
  apply (hSlots cells.toList.zipIdx).nodup
  rw [zipIdx_map_snd]
  exact nodup_range'

-- Pairs

/-
  A slot is the second half of a variable exactly if a variable
  that takes two slots starts right before it.
-/
structure Paired (cells : Array SlotCell) : Prop where
  first : contentAt cells 0 ≠ some .tail
  later : ∀ slot, contentAt cells (slot + 1) = some .tail ↔
      (contentAt cells slot).any SlotContent.isWide

section

variable (hPaired : Paired cells)
include hPaired

/- The second half of a variable follows it. -/
theorem Paired.tail_of_wide (hContent : contentAt cells slot = some content)
    (hWide : content.isWide = true) :
    contentAt cells (slot + 1) = some .tail := by
  rw [hPaired.later, hContent]
  exact hWide

theorem Paired.tail_iff (slot : Nat) :
    contentAt cells (slot + 1) = some .tail ↔ (tagIn cells slot).isSrcWide = true := by
  rw [hPaired.later, tagIn]
  cases contentAt cells slot with
  | none => simp [Tag.isSrcWide, Tag.void]
  | some content => cases content <;> rfl

/- What is free after a slot is freed: the slot, and the other half of a variable. -/
theorem contentAt_detach (slot other : Nat) :
    contentAt (detach cells slot) other = if slot = other
          ∨ (slot = other + 1 ∧ contentAt cells slot = some .tail)
          ∨ (other = slot + 1 ∧ contentAt cells other = some .tail) then
        (contentAt cells other).map fun _ => .void
      else
        contentAt cells other := by
  unfold detach
  rw [← contentAt]
  split
  · rename_i hNone
    have hEnd : contentAt cells (slot + 1) = none := by
      rw [contentAt_eq_none] at hNone ⊢
      omega
    by_cases hSame : slot = other
    · subst hSame
      simp [hNone]
    · rw [if_neg]
      rintro (hEqual | ⟨_, hTail⟩ | ⟨rfl, hTail⟩)
      · exact hSame hEqual
      · simp [hNone] at hTail
      · simp [hEnd] at hTail
  · rename_i hTail
    have hPositive : ¬ slot = 0 := by
      rintro rfl
      exact hPaired.first hTail
    have hAfter : ¬ contentAt cells (slot + 1) = some .tail := by
      rw [hPaired.later, hTail]
      exact nofun
    by_cases hSame : slot = other
    · subst hSame
      have hPred : ¬ slot - 1 = slot := by omega
      simp [hPositive, hTail, hPred]
    · by_cases hBefore : slot = other + 1
      · subst hBefore
        simp [hTail]
      · have hPred : ¬ slot - 1 = other := by omega
        have hNext : ¬ (other = slot + 1 ∧ contentAt cells other = some .tail) := by
          rintro ⟨rfl, hHalf⟩
          exact hAfter hHalf
        simp [hPositive, hSame, hBefore, hPred, hNext]
  · rename_i tag name hHead
    have hAfter : contentAt cells (slot + 1) = some .tail ↔ tag.isSrcWide := by
      rw [hPaired.later, hHead]
      rfl
    by_cases hWide : tag.isSrcWide = true
    · have hHalf := hAfter.mpr hWide
      have hBoth :
          tag.srcWidth = 2 ∧ cells[slot + 1]?.map SlotCell.content = some .tail :=
        ⟨by simp [Tag.srcWidth, hWide], hHalf⟩
      rw [if_pos hBoth]
      by_cases hSame : slot = other
      · subst hSame
        simp [hHead]
      · by_cases hNext : slot + 1 = other
        · subst hNext
          simp [hHalf]
        · have hOther : ¬ other = slot + 1 := fun hEqual => hNext hEqual.symm
          simp [hHead, hSame, hNext, hOther]
    · have hNarrow :
          ¬ (tag.srcWidth = 2 ∧ cells[slot + 1]?.map SlotCell.content = some .tail) :=
        fun hBoth => hWide (hAfter.mp hBoth.2)
      rw [if_neg hNarrow]
      have hNext : ¬ (other = slot + 1 ∧ contentAt cells other = some .tail) := by
        rintro ⟨rfl, hHalf⟩
        exact hWide (hAfter.mp hHalf)
      by_cases hSame : slot = other
      · subst hSame
        simp [hHead]
      · simp [hHead, hSame, hNext]

/- The variables that are left after a slot is freed. -/
theorem tagIn_detach (slot other : Nat) :
    tagIn (detach cells slot) other =
      if slot = other ∨ (slot = other + 1 ∧ contentAt cells slot = some .tail) then
        .void
      else
        tagIn cells other := by
  unfold tagIn
  rw [contentAt_detach hPaired]
  by_cases hStart :
      slot = other ∨ (slot = other + 1 ∧ contentAt cells slot = some .tail)
  · rw [if_pos hStart, if_pos (or_assoc.mp (.inl hStart))]
    cases contentAt cells other <;> rfl
  · rw [if_neg hStart]
    split
    · -- The second half of a variable has no tag of its own.
      rename_i hFreed
      rw [((or_assoc.mpr hFreed).resolve_left hStart).2]
      rfl
    · rfl

/- Both halves of a variable are freed, or none is. -/
theorem Paired.detach (slot : Nat) : Paired (detach cells slot) := by
  have hVoid (content : Option SlotContent) :
      ¬ content.map (fun _ => SlotContent.void) = some .tail ∧
        ¬ (content.map fun _ => SlotContent.void).any SlotContent.isWide = true := by
    cases content <;> simp [SlotContent.void, SlotContent.isWide, Tag.void, Tag.isSrcWide]
  constructor
  · rw [contentAt_detach hPaired]
    split
    · exact (hVoid _).1
    · exact hPaired.first
  · intro other
    have hLater := hPaired.later other
    rw [contentAt_detach hPaired, contentAt_detach hPaired]
    by_cases hHalf : contentAt cells (other + 1) = some .tail
    · have hWide := hLater.mp hHalf
      have hStart : ¬ contentAt cells other = some .tail := by
        intro hTail
        rw [hTail] at hWide
        cases hWide
      have hEnd : ¬ contentAt cells (other + 1 + 1) = some .tail := by
        rw [hPaired.later, hHalf]
        simp [SlotContent.isWide]
      have hTogether : (slot = other + 1 ∨
          (slot = other + 1 + 1 ∧ contentAt cells slot = some .tail) ∨
            (other + 1 = slot + 1 ∧ contentAt cells (other + 1) = some .tail)) ↔
          (slot = other ∨ (slot = other + 1 ∧ contentAt cells slot = some .tail) ∨
            (other = slot + 1 ∧ contentAt cells other = some .tail)) := by
        grind
      simp only [hTogether]
      split
      · exact iff_of_false (hVoid _).1 (hVoid _).2
      · exact hLater
    · have hNarrow := fun hWide => hHalf (hLater.mpr hWide)
      apply iff_of_false
      · split
        · exact (hVoid _).1
        · exact hHalf
      · split
        · exact (hVoid _).2
        · exact hNarrow

end

@[simp] theorem roomAt_detach (cells : Array SlotCell) (slot other : Nat) :
    roomAt (detach cells slot) other = roomAt cells other := by
  unfold detach
  split
  · rfl
  · split <;> simp
  · split <;> simp

@[simp] theorem size_detach (cells : Array SlotCell) (slot : Nat) :
    (detach cells slot).size = cells.size := by
  unfold detach
  split
  · rfl
  · split <;> simp
  · split <;> simp

section

variable (hPaired : Paired cells)
include hPaired

/- A variable can start where another one as wide did. -/
theorem Paired.setHead {tag old : Tag} {name oldName : Option String}
    (hSameWidth : tag.isSrcWide = old.isSrcWide)
    (hOld : contentAt cells slot = some (.head old oldName)) :
    Paired (setContent cells slot (.head tag name)) := by
  constructor
  · rw [contentAt_setContent]
    split
    · cases contentAt cells 0 <;> simp
    · exact hPaired.first
  · intro other
    rw [contentAt_setContent, contentAt_setContent]
    by_cases hSame : slot = other
    · subst hSame
      simp [hPaired.later, hOld, SlotContent.isWide, hSameWidth]
    · by_cases hNext : slot = other + 1
      · subst hNext
        have hNot : ¬ contentAt cells (other + 1) = some .tail := by
          rw [hOld]
          simp
        rw [hPaired.later] at hNot
        simp [hNot, hOld]
      · simp [hSame, hNext, hPaired.later]

/- The slots of a variable all have cells. -/
theorem Paired.end_of_head {tag : Tag} {name : Option String}
    (hHead : contentAt cells slot = some (.head tag name)) :
    slot + tag.srcWidth ≤ cells.size := by
  by_cases hWide : tag.isSrcWide = true
  · rw [(Tag.srcWidth_eq_two tag).mpr hWide]
    exact lt_size_of_contentAt (hPaired.tail_of_wide hHead hWide)
  · rw [Tag.srcWidth_eq_one hWide]
    exact lt_size_of_contentAt hHead

theorem Paired.end_le_size (hUsed : (tagIn cells slot).isVoid = false) :
    slot + (tagIn cells slot).srcWidth ≤ cells.size := by
  rcases exists_head hUsed with ⟨name, hHead⟩
  exact hPaired.end_of_head hHead

theorem Paired.congr {others : Array SlotCell}
    (hSame : ∀ slot, contentAt others slot = contentAt cells slot) :
    Paired others := by
  constructor
  · rw [hSame]
    exact hPaired.first
  · intro slot
    rw [hSame, hSame]
    exact hPaired.later slot

end

-- Free cells at the end

variable {map : SlotMap} {tag : Tag}

section

variable (map : SlotMap) (count other : Nat)

theorem getElem?_padded :
    (map.padded count)[other]? = if other < map.cells.size then map.cells[other]?
      else if other < count then some ⟨.void, map.plannedRoom other⟩
      else none := by
  unfold SlotMap.padded size
  rw [Array.getElem?_append]
  by_cases hSize : other < map.cells.size
  · rw [if_pos hSize, if_pos hSize]
  · rw [if_neg hSize, if_neg hSize, getElem?_toArray, getElem?_map]
    by_cases hCount : other < count
    · have hSlot : map.cells.size + 1 * (other - map.cells.size) = other := by
        omega
      rw [if_pos hCount, getElem?_range' (by omega), Option.map_some, hSlot]
    · rw [if_neg hCount, getElem?_eq_none (by simp; omega)]
      rfl

theorem contentAt_padded :
    contentAt (map.padded count) other = if other < map.cells.size then contentAt map.cells other
      else if other < count then some .void
      else none := by
  unfold contentAt
  rw [getElem?_padded]
  split
  · rfl
  · split <;> rfl

theorem roomAt_padded :
    roomAt (map.padded count) other = if other < map.cells.size then roomAt map.cells other
      else if other < count then some (map.plannedRoom other)
      else none := by
  unfold roomAt
  rw [getElem?_padded]
  split
  · rfl
  · split <;> rfl

theorem tagIn_padded :
    tagIn (map.padded count) other = tagIn map.cells other := by
  by_cases hSize : other < map.cells.size
  · simp [tagIn, contentAt_padded, hSize]
  · rw [tagIn_of_size_le (Nat.le_of_not_lt hSize)]
    unfold tagIn
    rw [contentAt_padded, if_neg hSize]
    split <;> rfl

theorem tail_padded :
    contentAt (map.padded count) other = some .tail ↔ contentAt map.cells other = some .tail := by
  rw [contentAt_padded]
  split
  · rfl
  · rename_i hSize
    rw [(contentAt_eq_none map.cells other).mpr (by omega)]
    split <;> simp [SlotContent.void]

theorem wide_padded :
    (contentAt (map.padded count) other).any SlotContent.isWide = true ↔
      (contentAt map.cells other).any SlotContent.isWide = true := by
  rw [contentAt_padded]
  split
  · rfl
  · rename_i hSize
    rw [(contentAt_eq_none map.cells other).mpr (by omega)]
    split <;>
      simp [SlotContent.void, SlotContent.isWide, Tag.void, Tag.isSrcWide]

end

theorem paired_padded (hPaired : Paired map.cells) (count : Nat) :
    Paired (map.padded count) := by
  constructor
  · rw [Ne, tail_padded]
    exact hPaired.first
  · intro slot
    rw [tail_padded, wide_padded]
    exact hPaired.later slot

theorem size_padded (map : SlotMap) (count : Nat) :
    (map.padded count).size = max map.cells.size count := by
  simp only [SlotMap.padded, size, Array.size_append, size_toArray,
    length_map, length_range']
  omega

-- Names

@[simp] theorem tagAt_forgetName (map : SlotMap) (name : String) (slot : Nat) :
    (map.forgetName name).tagAt slot = map.tagAt slot := by
  simp only [tagAt, content?, forgetName, Array.getElem?_map, Option.map_map]
  congr 2
  funext cell
  exact SlotContent.tag_forget name cell.content

theorem contentAt_forgetName (map : SlotMap) (name : String) (slot : Nat) :
    contentAt (map.forgetName name).cells slot =
      (contentAt map.cells slot).map (SlotContent.forget name) := by
  simp only [SlotMap.forgetName, contentAt, Array.getElem?_map, Option.map_map]
  rfl

theorem roomAt_forgetName (map : SlotMap) (name : String) (slot : Nat) :
    roomAt (map.forgetName name).cells slot = roomAt map.cells slot := by
  simp only [SlotMap.forgetName, roomAt, Array.getElem?_map, Option.map_map]
  rfl

theorem paired_forgetName (hPaired : Paired map.cells) (name : String) :
    Paired (map.forgetName name).cells := by
  have hTail (slot : Nat) :
      contentAt (map.forgetName name).cells slot = some .tail ↔
        contentAt map.cells slot = some .tail := by
    rw [contentAt_forgetName]
    cases contentAt map.cells slot <;> simp
  have hWide (slot : Nat) :
      (contentAt (map.forgetName name).cells slot).any SlotContent.isWide =
        (contentAt map.cells slot).any SlotContent.isWide := by
    rw [contentAt_forgetName]
    cases contentAt map.cells slot <;> simp
  constructor
  · rw [Ne, hTail]
    exact hPaired.first
  · intro slot
    rw [hTail, hWide]
    exact hPaired.later slot

-- Storing a variable

namespace Placed

/- The cells with the slots freed that a variable will cover. -/
def freed (map : SlotMap) (slot : Nat) (tag : Tag) : Array SlotCell :=
  (List.range' slot tag.srcWidth).foldl detach
    (map.padded (slot + tag.srcWidth))

/- The cells with a variable stored. -/
def stored (map : SlotMap) (slot : Nat) (tag : Tag)
    (name : Option String) : Array SlotCell :=
  let cells := setContent (freed map slot tag) slot (.head tag name)
  if tag.srcWidth = 2 then setContent cells (slot + 1) .tail else cells

end Placed

open Placed (freed stored)

section

variable (map : SlotMap) (slot : Nat)

theorem freed_narrow (hNarrow : ¬ tag.isSrcWide = true) :
    freed map slot tag = detach (map.padded (slot + 1)) slot := by
  unfold freed
  rw [Tag.srcWidth_eq_one hNarrow]
  rfl

theorem freed_wide (hWide : tag.isSrcWide = true) :
    freed map slot tag =
      detach (detach (map.padded (slot + 2)) slot) (slot + 1) := by
  unfold freed
  rw [(Tag.srcWidth_eq_two tag).mpr hWide]
  rfl

theorem size_stored (tag : Tag) (name : Option String) :
    (stored map slot tag name).size = max map.cells.size (slot + tag.srcWidth) := by
  have hFreed : (freed map slot tag).size = max map.cells.size (slot + tag.srcWidth) := by
    by_cases hWide : tag.isSrcWide = true
    · rw [freed_wide map slot hWide, (Tag.srcWidth_eq_two tag).mpr hWide]
      simp [size_padded]
    · rw [freed_narrow map slot hWide, Tag.srcWidth_eq_one hWide]
      simp [size_padded]
  unfold stored
  split <;> simp [hFreed]

theorem end_le_size_stored (tag : Tag) (name : Option String) :
    slot + tag.srcWidth ≤ (stored map slot tag name).size := by
  rw [size_stored]
  exact Nat.le_max_right _ _

theorem roomAt_stored (tag : Tag) (name : Option String) (other : Nat) :
    roomAt (stored map slot tag name) other =
      roomAt (map.padded (slot + tag.srcWidth)) other := by
  have hFreed : roomAt (freed map slot tag) other =
      roomAt (map.padded (slot + tag.srcWidth)) other := by
    unfold freed
    generalize List.range' slot tag.srcWidth = slots
    generalize map.padded (slot + tag.srcWidth) = cells
    induction slots generalizing cells with
    | nil => rfl
    | cons first slots ih => rw [foldl_cons, ih, roomAt_detach]
  unfold stored
  split <;> simp [hFreed]

end

theorem put_eq_some {slot address : Nat} {name : Option String} {after : SlotMap} :
    map.put slot tag name = some (address, after) ↔
      map.fits slot tag = true ∧ map.withCells (grow (stored map slot tag name) slot tag) = after ∧
        (after.addresses[slot]?).getD 0 = address := by
  unfold put
  split
  case isTrue hFits =>
    simp only [hFits, Option.some.injEq, Prod.mk.injEq, true_and]
    constructor
    · rintro ⟨hAddress, rfl⟩
      exact ⟨rfl, hAddress⟩
    · rintro ⟨rfl, hAddress⟩
      exact ⟨hAddress, rfl⟩
  case isFalse hFits => simp [hFits]

theorem put_eq_none {slot : Nat} {name : Option String} :
    map.put slot tag name = none ↔ ¬ map.fits slot tag = true := by
  unfold put
  split <;> simp_all

theorem fits_eq_true {slot : Nat} :
    map.fits slot tag = true ↔
      tag.isSrcWide = true ∨ map.isFreeFrom (slot + 1) = true ∨ tag.dstWidth ≤ map.room slot := by
  unfold fits available?
  rw [Bool.or_eq_true, beq_iff_eq, Tag.srcWidth_eq_two]
  cases map.isFreeFrom (slot + 1) <;> simp

theorem retag?_eq_some {slot : Nat} {after : SlotMap} :
    map.retag? slot tag = some after ↔
      ∃ old name, contentAt map.cells slot = some (.head old name) ∧ old.isVoid = false ∧
        old.srcWidth = tag.srcWidth ∧ map.fits slot tag = true ∧
          map.withCells (grow (setContent map.cells slot (.head tag name)) slot tag) = after := by
  unfold retag?
  rw [content?_eq]
  rcases contentAt map.cells slot with _ | ⟨old, name⟩ | _
  · simp
  · simp [and_assoc]
  · simp

/- The slots that a variable will cover have a cell. -/
theorem exists_contentAt_padded (map : SlotMap) (count : Nat) {other : Nat}
    (hOther : other < count) :
    ∃ content, contentAt (map.padded count) other = some content := by
  apply Option.ne_none_iff_exists'.mp
  rw [Ne, contentAt_eq_none, size_padded]
  omega

section

variable (hPaired : Paired map.cells)
include hPaired

section

variable (slot : Nat) (tag : Tag)

/-
  The content of every slot after those are freed that a variable
  will cover: the other halves of variables there are free as well.
-/
theorem contentAt_freed (other : Nat) :
    contentAt (freed map slot tag) other =
      if (slot ≤ other ∧ other < slot + tag.srcWidth) ∨
          (slot = other + 1 ∧ contentAt map.cells slot = some .tail) ∨
          (other = slot + tag.srcWidth ∧ contentAt map.cells other = some .tail) then some .void
      else contentAt (map.padded (slot + tag.srcWidth)) other := by
  have hPadded := paired_padded hPaired (slot + tag.srcWidth)
  have hCell : other < slot + tag.srcWidth → _ :=
    exists_contentAt_padded map (slot + tag.srcWidth)
  have hTail := tail_padded map (slot + tag.srcWidth)
  by_cases hWide : tag.isSrcWide = true
  · rw [freed_wide map slot hWide]
    rw [(Tag.srcWidth_eq_two tag).mpr hWide] at hPadded hCell hTail ⊢
    simp only [contentAt_detach (hPadded.detach slot), contentAt_detach hPadded, ← hTail]
    grind
  · rw [freed_narrow map slot hWide]
    rw [Tag.srcWidth_eq_one hWide] at hPadded hCell hTail ⊢
    simp only [contentAt_detach hPadded, ← hTail]
    grind

/-
  The content of every slot after a variable is stored: the
  variable itself, the other halves of variables in its way, and
  what stood there before.
-/
theorem contentAt_stored (name : Option String) (other : Nat) :
    contentAt (stored map slot tag name) other =
      if slot = other then some (.head tag name)
      else if slot < other ∧ other < slot + tag.srcWidth then some .tail
      else if (slot = other + 1 ∧ contentAt map.cells slot = some .tail) ∨
          (other = slot + tag.srcWidth ∧ contentAt map.cells other = some .tail) then some .void
      else contentAt (map.padded (slot + tag.srcWidth)) other := by
  unfold stored
  by_cases hWide : tag.isSrcWide = true
  · rw [(Tag.srcWidth_eq_two tag).mpr hWide, if_pos rfl]
    simp only [contentAt_setContent, contentAt_freed hPaired, (Tag.srcWidth_eq_two tag).mpr hWide]
    grind
  · rw [Tag.srcWidth_eq_one hWide, if_neg (by omega)]
    simp only [contentAt_setContent, contentAt_freed hPaired, Tag.srcWidth_eq_one hWide]
    grind

/- The halves that are left of variables in the way are free, so no half is alone. -/
theorem paired_stored (name : Option String) : Paired (stored map slot tag name) := by
  have hPadded := paired_padded hPaired (slot + tag.srcWidth)
  have hTail := tail_padded map (slot + tag.srcWidth)
  have hWidth := tag.srcWidth_eq_two
  have hPositive := tag.srcWidth_pos
  have hTwo := tag.srcWidth_le_two
  have hVoid : SlotContent.void ≠ .tail ∧ SlotContent.void.isWide = false := by decide
  have hHead : (SlotContent.head tag name).isWide = tag.isSrcWide := rfl
  have hHalf : SlotContent.tail.isWide = false := rfl
  constructor
  · have hFirst := hPadded.first
    rw [contentAt_stored hPaired]
    grind
  · intro other
    have hLater := hPadded.later other
    have hNext := hPadded.later (other + 1)
    rw [contentAt_stored hPaired, contentAt_stored hPaired]
    simp only [← hTail]
    rcases Nat.lt_or_ge (other + 1) slot with hBefore | hReached
    · grind
    · rcases Nat.lt_or_ge other (slot + tag.srcWidth) with hInside | hBehind
      · grind
      · grind

/- The variables after one is stored: those in its way are gone. -/
theorem tagIn_stored (name : Option String) (other : Nat) :
    tagIn (stored map slot tag name) other = if slot = other then tag
      else if slot = other + 1 ∧ map.isTail slot = true then .void
      else if slot + 1 = other ∧ tag.isSrcWide = true then .void
      else map.tagAt other := by
  have hOld : tagIn map.cells other = map.tagAt other := rfl
  have hTail : map.isTail slot = true ↔ contentAt map.cells slot = some .tail := by
    rw [isTail, beq_iff_eq, content?_eq]
  have hWidth := tag.srcWidth_eq_two
  have hPositive := tag.srcWidth_pos
  have hTwo := tag.srcWidth_le_two
  rw [tagIn, contentAt_stored hPaired]
  simp only [hTail, ← hWidth]
  by_cases hSame : slot = other
  · rw [if_pos hSame, if_pos hSame]
    rfl
  rw [if_neg hSame, if_neg hSame]
  by_cases hSecond : slot < other ∧ other < slot + tag.srcWidth
  · rw [if_pos hSecond, if_neg (by omega), if_pos (by omega)]
    rfl
  rw [if_neg hSecond]
  by_cases hFirst : slot = other + 1 ∧ contentAt map.cells slot = some .tail
  · rw [if_pos (.inl hFirst), if_pos hFirst]
    rfl
  rw [if_neg hFirst, if_neg (show ¬ (slot + 1 = other ∧ tag.srcWidth = 2) by omega)]
  split
  case isTrue hHalf =>
    -- A second half has no tag of its own.
    rw [← hOld, tagIn, (hHalf.resolve_left hFirst).2]
    rfl
  case isFalse => exact tagIn_padded map _ other

end

end

end SlotMap

end Unboxing
