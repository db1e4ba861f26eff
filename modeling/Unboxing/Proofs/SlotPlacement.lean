import Unboxing.Proofs.SlotCells

/-
  Cells in which every value has room, and maps of local
  variables that follow their plan. In such a map every slot has
  its planned room, so every address is the planned one, and a
  payload stands only where there is room for it. All edits of a
  map keep this, and none of them fails as long as payloads go to
  slots with room for them. Declared types are never payloads, so
  the locals at the start of a body and those of frames follow
  the plan, also where narrowing turns a null into a payload.

  Main declarations:
    * `SoundCells`
    * `SoundCells.grow_stored`
    * `SlotMap.Placed`
    * `SlotMap.Placed.address_eq`
    * `SlotMap.Placed.declaredLocals`
    * `Method.placed_initialLocals`
-/

namespace Unboxing

open List SlotMap

variable {cells : Array SlotCell} {slot room : Nat}

-- Sound cells

/- A slot has room, and enough of it for a value that takes one slot. -/
structure Roomy (cells : Array SlotCell) (slot room : Nat) : Prop where
  positive : 1 ≤ room
  held : ¬ (tagIn cells slot).isSrcWide = true → (tagIn cells slot).dstWidth ≤ room

/-
  Cells in which every slot has room. In contrast to cells that
  follow a plan, the rooms may be any.
-/
structure SoundCells (cells : Array SlotCell) : Prop where
  paired : Paired cells
  roomy : ∀ slot room, roomAt cells slot = some room → Roomy cells slot room

/- A slot with a larger room for the same variable still has room. -/
theorem Roomy.mono {others : Array SlotCell} {otherRoom : Nat}
    (hRoomy : Roomy cells slot room) (hTag : tagIn others slot = tagIn cells slot)
    (hRoom : room ≤ otherRoom) :
    Roomy others slot otherRoom where
  positive := Nat.le_trans hRoomy.positive hRoom
  held := by
    rw [hTag]
    exact fun hNarrow => Nat.le_trans (hRoomy.held hNarrow) hRoom

/- A slot without a variable needs one cell. -/
theorem Roomy.of_void (hTag : tagIn cells slot = .void) (hRoom : 1 ≤ room) :
    Roomy cells slot room where
  positive := hRoom
  held := by
    rw [hTag]
    exact fun _ => hRoom

namespace SoundCells

variable {cells : Array SlotCell} {slot : Nat} {tag : Tag} {count room : Nat}
variable {name oldName : Option String} {old : Tag}

theorem empty : SoundCells #[] where
  paired := ⟨by simp [contentAt], by simp [contentAt]⟩
  roomy := by simp [roomAt]

theorem detach (hCells : SoundCells cells) (slot : Nat) :
    SoundCells (detach cells slot) where
  paired := hCells.paired.detach slot
  roomy := by
    intro other room hRoom
    rw [roomAt_detach] at hRoom
    have hRoomy := hCells.roomy other room hRoom
    have hTag := tagIn_detach hCells.paired slot other
    split at hTag
    · exact Roomy.of_void hTag hRoomy.positive
    · exact hRoomy.mono hTag (Nat.le_refl _)

/- Free cells at the end have their planned rooms. -/
theorem padded {map : SlotMap} (hCells : SoundCells map.cells) (count : Nat) :
    SoundCells (map.padded count) where
  paired := paired_padded hCells.paired count
  roomy := by
    intro slot room hRoom
    have hTag := tagIn_padded map count slot
    rw [roomAt_padded] at hRoom
    split at hRoom
    case isTrue => exact (hCells.roomy slot room hRoom).mono hTag (Nat.le_refl _)
    case isFalse hSize =>
      rw [tagIn_of_size_le (Nat.le_of_not_lt hSize)] at hTag
      split at hRoom
      · cases hRoom
        exact Roomy.of_void hTag (plannedRoom_pos map.plan slot)
      · cases hRoom

-- The first cells

section

variable (cells : Array SlotCell) (count slot : Nat)

theorem getElem?_take :
    (cells.take count)[slot]? = if slot < count then cells[slot]? else none := by
  rw [Array.take_eq_extract, Array.getElem?_extract]
  by_cases hSlot : slot < count
  · by_cases hSize : slot < cells.size
    · rw [if_pos (by omega), if_pos hSlot, Nat.zero_add]
    · rw [if_neg (by omega), if_pos hSlot, Array.getElem?_eq_none (by omega)]
  · rw [if_neg (by omega), if_neg hSlot]

theorem contentAt_take :
    contentAt (cells.take count) slot = if slot < count then contentAt cells slot else none := by
  unfold contentAt
  rw [getElem?_take]
  split <;> rfl

theorem roomAt_take :
    roomAt (cells.take count) slot = if slot < count then roomAt cells slot else none := by
  unfold roomAt
  rw [getElem?_take]
  split <;> rfl

end

theorem paired_take (hPaired : Paired cells)
    (hWhole : contentAt cells count ≠ some .tail) :
    Paired (cells.take count) := by
  constructor
  · rw [contentAt_take]
    split
    · exact hPaired.first
    · simp
  · intro slot
    rw [contentAt_take, contentAt_take]
    by_cases hNext : slot + 1 < count
    · rw [if_pos hNext, if_pos (by omega)]
      exact hPaired.later slot
    · rw [if_neg hNext]
      by_cases hSlot : slot < count
      · -- The slot is the last one that is kept.
        have hCount : count = slot + 1 := by omega
        subst hCount
        rw [if_pos hSlot, ← hPaired.later slot]
        simp [hWhole]
      · rw [if_neg hSlot]
        simp

theorem take (hCells : SoundCells cells) (hWhole : contentAt cells count ≠ some .tail) :
    SoundCells (cells.take count) where
  paired := paired_take hCells.paired hWhole
  roomy := by
    intro slot room hRoom
    rw [roomAt_take] at hRoom
    split at hRoom
    case isTrue hSlot =>
      have hTag : tagIn (cells.take count) slot = tagIn cells slot := by
        unfold tagIn
        rw [contentAt_take, if_pos hSlot]
      exact (hCells.roomy slot room hRoom).mono hTag (Nat.le_refl _)
    case isFalse => cases hRoom

/- After the last cell there is no variable in two slots. -/
theorem not_wide_last (hCells : SoundCells cells) (hSlot : slot + 1 = cells.size) :
    ¬ (contentAt cells slot).any SlotContent.isWide = true := by
  rw [← hCells.paired.later, (contentAt_eq_none cells (slot + 1)).mpr (by omega)]
  simp

theorem dropVariable (hCells : SoundCells cells) : SoundCells (dropVariable cells) := by
  have hPop : cells.pop = cells.take (cells.size - 1) := by simp
  have hPopPop : cells.pop.pop = cells.take (cells.size - 2) := by
    apply Array.ext'
    simp only [Array.toList_pop, dropLast_eq_take, length_take,
      Array.length_toList, Array.take_eq_extract, Array.toList_extract, extract_eq_take_drop,
      drop_zero, take_take]
    congr 1
    omega
  unfold SlotMap.dropVariable
  rw [Array.back?_eq_getElem?, ← contentAt]
  split
  case h_1 hTail =>
    -- The second half goes with its variable, which is no second half itself.
    rw [hPopPop]
    refine hCells.take ?_
    intro hHalf
    have hInside := lt_size_of_contentAt hTail
    have hLast : cells.size - 1 = cells.size - 2 + 1 := by
      rcases Nat.lt_or_ge 1 cells.size with hTwo | hOne
      · omega
      · rw [show cells.size - 1 = 0 by omega] at hTail
        exact absurd hTail hCells.paired.first
    rw [hLast, hCells.paired.later, hHalf] at hTail
    cases hTail
  case h_2 hOther =>
    rw [hPop]
    exact hCells.take hOther

-- One more variable

section

variable (cells : Array SlotCell) (cell : SlotCell) (slot : Nat)

theorem contentAt_push :
    contentAt (cells.push cell) slot =
      if slot = cells.size then some cell.content else contentAt cells slot := by
  unfold contentAt
  rw [Array.getElem?_push]
  split <;> rfl

theorem roomAt_push :
    roomAt (cells.push cell) slot =
      if slot = cells.size then some cell.room else roomAt cells slot := by
  unfold roomAt
  rw [Array.getElem?_push]
  split <;> rfl

theorem tagIn_push :
    tagIn (cells.push cell) slot =
      if slot = cells.size then cell.content.tag else tagIn cells slot := by
  unfold tagIn
  rw [contentAt_push]
  split <;> rfl

end

theorem pushHead (hCells : SoundCells cells) (hNarrow : ¬ tag.isSrcWide = true)
    (hRoom : 1 ≤ room) (hHeld : tag.dstWidth ≤ room) :
    SoundCells (cells.push ⟨.head tag name, room⟩) where
  paired := by
    constructor
    · rw [contentAt_push]
      split
      · simp
      · exact hCells.paired.first
    · intro slot
      rw [contentAt_push, contentAt_push]
      by_cases hSlot : slot = cells.size
      · rw [if_pos hSlot, if_neg (by omega), (contentAt_eq_none cells _).mpr (by omega)]
        simp [SlotContent.isWide, hNarrow]
      · rw [if_neg hSlot]
        by_cases hNext : slot + 1 = cells.size
        · rw [if_pos hNext]
          simp [hCells.not_wide_last hNext]
        · rw [if_neg hNext]
          exact hCells.paired.later slot
  roomy := by
    intro slot otherRoom hOther
    have hTag := tagIn_push cells ⟨.head tag name, room⟩ slot
    rw [roomAt_push] at hOther
    by_cases hSlot : slot = cells.size
    · rw [if_pos hSlot] at hOther hTag
      cases hOther
      refine ⟨hRoom, ?_⟩
      rw [hTag]
      exact fun _ => hHeld
    · rw [if_neg hSlot] at hOther hTag
      exact (hCells.roomy slot otherRoom hOther).mono hTag (Nat.le_refl _)

theorem pushBoth (hCells : SoundCells cells) {first second : Nat}
    (hWide : tag.isSrcWide = true) (hFirst : 1 ≤ first) (hSecond : 1 ≤ second) :
    SoundCells ((cells.push ⟨.head tag name, first⟩).push ⟨.tail, second⟩) where
  paired := by
    constructor
    · rw [contentAt_push, Array.size_push, if_neg (by omega), contentAt_push]
      split
      · simp
      · exact hCells.paired.first
    · intro slot
      simp only [contentAt_push, Array.size_push]
      by_cases hSlot : slot = cells.size
      · rw [if_pos (by omega), if_neg (by omega), if_pos hSlot]
        simp [SlotContent.isWide, hWide]
      · by_cases hAfter : slot = cells.size + 1
        · rw [if_neg (by omega), if_neg (by omega), if_pos hAfter,
            (contentAt_eq_none cells _).mpr (by omega)]
          simp [SlotContent.isWide]
        · rw [if_neg (by omega), if_neg hAfter, if_neg hSlot]
          by_cases hNext : slot + 1 = cells.size
          · rw [if_pos hNext]
            simp [hCells.not_wide_last hNext]
          · rw [if_neg hNext]
            exact hCells.paired.later slot
  roomy := by
    intro slot room hRoom
    have hTag := tagIn_push (cells.push ⟨.head tag name, first⟩) ⟨.tail, second⟩ slot
    rw [tagIn_push cells, Array.size_push] at hTag
    rw [roomAt_push, roomAt_push, Array.size_push] at hRoom
    by_cases hAfter : slot = cells.size + 1
    · rw [if_pos hAfter] at hRoom hTag
      cases hRoom
      exact Roomy.of_void hTag hSecond
    · rw [if_neg hAfter] at hRoom hTag
      by_cases hSlot : slot = cells.size
      · rw [if_pos hSlot] at hRoom hTag
        cases hRoom
        refine ⟨hFirst, ?_⟩
        rw [hTag]
        exact fun hNarrow => absurd hWide hNarrow
      · rw [if_neg hSlot] at hRoom hTag
        exact (hCells.roomy slot room hRoom).mono hTag (Nat.le_refl _)

-- Growing

/- Give a slot more room. -/
def widen (cells : Array SlotCell) (slot extra : Nat) : Array SlotCell :=
  cells.modify slot fun cell => { cell with room := cell.room + extra }

theorem contentAt_widen (cells : Array SlotCell) (slot extra other : Nat) :
    contentAt (widen cells slot extra) other = contentAt cells other := by
  unfold contentAt widen
  rw [Array.getElem?_modify]
  split
  · rw [Option.map_map]
    rfl
  · rfl

theorem roomAt_widen (cells : Array SlotCell) (slot extra other : Nat) :
    roomAt (widen cells slot extra) other =
      if slot = other then (roomAt cells other).map (· + extra) else roomAt cells other := by
  unfold roomAt widen
  rw [Array.getElem?_modify]
  split
  · rw [Option.map_map, Option.map_map]
    rfl
  · rfl

/- Only a variable in one slot grows, and what stands after it is cut off then. -/
theorem grow_eq (hPositive : ∀ other room, roomAt cells other = some room → 1 ≤ room)
    (hInside : slot + tag.srcWidth ≤ cells.size) (hRoom : roomAt cells slot = some room) :
    SlotMap.grow cells slot tag =
      if tag.isSrcWide = true ∨ tag.dstWidth ≤ room then cells
      else widen (cells.take (slot + 1)) slot (tag.dstWidth - room) := by
  rcases Option.map_eq_some_iff.mp hRoom with ⟨cell, hCell, hCellRoom⟩
  have hFirst : cells.toList[slot]? = some cell := by simpa using hCell
  unfold SlotMap.grow
  by_cases hWide : tag.isSrcWide = true
  · rw [(Tag.srcWidth_eq_two tag).mpr hWide] at hInside ⊢
    have hNext : slot + 1 < cells.size := hInside
    have hSecond : cells.toList[slot + 1]? = some cells[slot + 1] := by simp
    have hTaken : (cells.toList.drop slot).take 2 = [cell, cells[slot + 1]] := by
      rw [drop_eq_getElem?_toList_append, hFirst, drop_eq_getElem?_toList_append, hSecond]
      rfl
    have hFirstRoom := hPositive slot room hRoom
    have hSecondRoom := hPositive (slot + 1) cells[slot + 1].room (by simp [roomAt, hNext])
    have hTwo := tag.dstWidth_le_two
    rw [if_pos (show tag.isSrcWide = true ∨ _ from .inl hWide), if_neg]
    simp only [hTaken, map_cons, map_nil, total_cons, total_nil]
    omega
  · have hTaken : (cells.toList.drop slot).take 1 = [cell] := by
      rw [drop_eq_getElem?_toList_append, hFirst]
      rfl
    simp only [Tag.srcWidth_eq_one hWide, hTaken, map_cons, map_nil, total_cons,
      total_nil, hCellRoom, Nat.add_zero, Nat.add_sub_cancel]
    by_cases hEnough : tag.dstWidth ≤ room
    · rw [if_neg (Nat.not_lt.mpr hEnough), if_pos (.inr hEnough)]
    · rw [if_pos (Nat.lt_of_not_le hEnough), if_neg (not_or.mpr ⟨hWide, hEnough⟩)]
      rfl

/- Cells with room for all variables but one, for which there is room then. -/
theorem grow (hPaired : Paired cells) (hHead : contentAt cells slot = some (.head tag name))
    (hPositive : ∀ other room, roomAt cells other = some room → 1 ≤ room)
    (hOthers : ∀ other room, other ≠ slot → roomAt cells other = some room →
      Roomy cells other room) :
    SoundCells (SlotMap.grow cells slot tag) := by
  have hTag : tagIn cells slot = tag := tagIn_of_content hHead
  rcases exists_roomAt (lt_size_of_contentAt hHead) with ⟨room, hRoom⟩
  rw [grow_eq hPositive (hPaired.end_of_head hHead) hRoom]
  split
  case isTrue hEnough =>
    refine ⟨hPaired, ?_⟩
    intro other found hFound
    by_cases hSame : other = slot
    · subst hSame
      rw [hRoom] at hFound
      cases hFound
      refine ⟨hPositive other room hRoom, ?_⟩
      rw [hTag]
      exact fun hNarrow => hEnough.resolve_left hNarrow
    · exact hOthers other found hSame hFound
  case isFalse hShort =>
    rw [not_or] at hShort
    -- The slot after a variable in one slot is no second half.
    have hWhole : contentAt cells (slot + 1) ≠ some .tail := by
      rw [Ne, hPaired.later, hHead]
      exact hShort.1
    refine ⟨(paired_take hPaired hWhole).congr (contentAt_widen _ slot _), ?_⟩
    intro other found hFound
    rw [roomAt_widen, roomAt_take] at hFound
    have hSameTag (hKept : other < slot + 1) :
        tagIn (widen (cells.take (slot + 1)) slot (tag.dstWidth - room)) other =
          tagIn cells other := by
      rw [tagIn, contentAt_widen, contentAt_take, if_pos hKept, tagIn]
    by_cases hSame : slot = other
    · subst hSame
      rw [if_pos rfl, if_pos (Nat.lt_succ_self slot), hRoom, Option.map_some,
        Option.some.injEq] at hFound
      have hFirst := hPositive slot room hRoom
      refine ⟨by omega, ?_⟩
      rw [hSameTag (Nat.lt_succ_self slot), hTag]
      intro hNarrow
      omega
    · rw [if_neg hSame] at hFound
      split at hFound
      case isTrue hKept =>
        exact (hOthers other found (Ne.symm hSame) hFound).mono (hSameTag hKept) (Nat.le_refl _)
      case isFalse => cases hFound

theorem grow_stored {map : SlotMap} (hCells : SoundCells map.cells) (slot : Nat) (tag : Tag)
    (name : Option String) :
    SoundCells (SlotMap.grow (Placed.stored map slot tag name) slot tag) := by
  have hPadded := hCells.padded (slot + tag.srcWidth)
  apply grow (paired_stored hCells.paired slot tag name)
  · rw [contentAt_stored hCells.paired, if_pos rfl]
  · intro other room hRoom
    rw [roomAt_stored] at hRoom
    exact (hPadded.roomy other room hRoom).positive
  · intro other room hOther hRoom
    rw [roomAt_stored] at hRoom
    have hRoomy := hPadded.roomy other room hRoom
    have hTag := tagIn_stored hCells.paired slot tag name other
    rw [if_neg hOther.symm] at hTag
    split at hTag
    · exact Roomy.of_void hTag hRoomy.positive
    · split at hTag
      · exact Roomy.of_void hTag hRoomy.positive
      · exact hRoomy.mono (hTag.trans (tagIn_padded map _ other).symm) (Nat.le_refl _)

theorem grow_setContent (hCells : SoundCells cells) (name : Option String)
    (hOld : contentAt cells slot = some (.head old oldName))
    (hWidth : old.srcWidth = tag.srcWidth) :
    SoundCells (SlotMap.grow (setContent cells slot (.head tag name)) slot tag) := by
  have hSameWidth : tag.isSrcWide = old.isSrcWide := by
    rw [Bool.eq_iff_iff, ← Tag.srcWidth_eq_two, ← Tag.srcWidth_eq_two, hWidth]
  apply grow (hCells.paired.setHead hSameWidth hOld)
  · rw [contentAt_setContent, if_pos rfl, hOld]
    rfl
  · intro other room hRoom
    rw [roomAt_setContent] at hRoom
    exact (hCells.roomy other room hRoom).positive
  · intro other room hOther hRoom
    rw [roomAt_setContent] at hRoom
    have hTag := tagIn_setContent (lt_size_of_contentAt hOld) (.head tag name) other
    rw [if_neg hOther.symm] at hTag
    exact (hCells.roomy other room hRoom).mono hTag (Nat.le_refl _)

end SoundCells

-- Addresses

namespace SlotMap

variable {map : SlotMap} {slot : Nat}

theorem room_eq_getD (map : SlotMap) (slot : Nat) :
    map.room slot = (roomAt map.cells slot).getD (map.plannedRoom slot) := by
  unfold room roomAt
  split <;> rename_i hCell <;> rw [hCell] <;> rfl

@[simp] theorem withCells_cells (map : SlotMap) (cells : Array SlotCell) :
    (map.withCells cells).cells = cells :=
  rfl

theorem addressesFrom_getElem? (next : Nat) (cells : List SlotCell) (slot : Nat) :
    (addressesFrom next cells)[slot]? = if slot ≤ cells.length then
        some (next + total ((cells.take slot).map SlotCell.room))
      else
        none := by
  induction cells generalizing next slot with
  | nil =>
    cases slot with
    | zero | succ slot => simp [addressesFrom]
  | cons cell cells ih =>
    cases slot with
    | zero => simp [addressesFrom]
    | succ slot =>
      simp [addressesFrom, ih, Nat.add_assoc]

/- Cells whose rooms are the same have the same addresses. -/
theorem addressesFrom_congr {left right : Array SlotCell}
    (hRooms : ∀ slot, roomAt left slot = roomAt right slot) :
    addressesFrom 0 left.toList = addressesFrom 0 right.toList := by
  have hFrom (next : Nat) (first second : List SlotCell)
      (hSame : first.map SlotCell.room = second.map SlotCell.room) :
      addressesFrom next first = addressesFrom next second := by
    induction first generalizing next second with
    | nil =>
      cases second with
      | nil => rfl
      | cons _ _ => cases hSame
    | cons cell first ih =>
      cases second with
      | nil => cases hSame
      | cons other second =>
        simp only [map_cons, List.cons.injEq] at hSame
        simp only [addressesFrom, hSame.1, ih _ second hSame.2]
  apply hFrom
  apply ext_getElem?
  intro slot
  have hSlot := hRooms slot
  simpa [roomAt] using hSlot

/- The rooms of the first cells, counted by slots. -/
theorem take_rooms {cells : Array SlotCell} {rooms : Nat → Nat}
    (hRooms : ∀ other < slot, roomAt cells other = some (rooms other)) :
    total ((cells.toList.take slot).map SlotCell.room) = total ((List.range slot).map rooms) := by
  congr 1
  apply ext_getElem?
  intro index
  rw [getElem?_map, getElem?_map]
  by_cases hIndex : index < slot
  · rw [getElem?_take_of_lt hIndex, Array.getElem?_toList, ← roomAt, hRooms index hIndex,
      getElem?_range hIndex, Option.map_some]
  · rw [getElem?_eq_none (by simp; omega), getElem?_eq_none (by simp; omega)]
    rfl

theorem roomAt_of_lt (hSlot : slot < map.size) :
    roomAt map.cells slot = some (map.room slot) := by
  have hInside : slot < map.cells.size := hSlot
  simp [roomAt, room, hInside]

/- Storing a variable changes no room. -/
theorem room_stored (slot : Nat) (tag : Tag) (name : Option String) (other : Nat) :
    (map.withCells (Placed.stored map slot tag name)).room other = map.room other := by
  rw [room_eq_getD, room_eq_getD, withCells_cells, roomAt_stored, roomAt_padded]
  by_cases hSize : other < map.cells.size
  · rw [if_pos hSize, roomAt_of_lt hSize]
    rfl
  · have hNone : roomAt map.cells other = none := by
      simpa [roomAt] using hSize
    rw [if_neg hSize, hNone]
    split <;> rfl

section

variable (hTable : map.addresses = (addressesFrom 0 map.cells.toList).toArray)
include hTable

/- The table holds the sums of the rooms before each slot. -/
theorem addresses_of_table (slot : Nat) :
    map.addresses[slot]? =
      if slot ≤ map.size then some (total ((List.range slot).map map.room)) else none := by
  rw [hTable, getElem?_toArray, addressesFrom_getElem?, Array.length_toList, Nat.zero_add,
    ← size]
  split
  case isTrue hSlot =>
    rw [take_rooms fun other hOther => roomAt_of_lt (Nat.lt_of_lt_of_le hOther hSlot)]
  case isFalse => rfl

/- The address of a slot is the sum of the rooms before it, tracked or not. -/
theorem address_of_table (slot : Nat) :
    map.address slot = total ((List.range slot).map map.room) := by
  unfold address dstSize
  rw [addresses_of_table hTable, ← size, addresses_of_table hTable, if_pos (Nat.le_refl _)]
  by_cases hSlot : slot ≤ map.size
  · rw [if_pos hSlot]
  · have hRange : List.range slot =
        List.range map.size ++ List.range' map.size (slot - map.size) := by
      rw [range_eq_range', range_eq_range']
      have hAppend := @range'_append_1 0 map.size (slot - map.size)
      rw [Nat.zero_add] at hAppend
      rw [hAppend]
      congr 1
      omega
    rw [if_neg hSlot, span, hRange, map_append, total_append]
    rfl

end

end SlotMap

-- Cells that follow a plan

/-
  Cells with their planned rooms, in which a payload stands
  only where there is room for it.
-/
structure PlacedCells (plan : Array Nat) (cells : Array SlotCell) : Prop where
  paired : Paired cells
  room : ∀ slot room, roomAt cells slot = some room → room = plannedRoom plan slot
  payload : ∀ slot, (tagIn cells slot).isPayload = true → 2 ≤ plannedRoom plan slot

namespace PlacedCells

variable {plan : Array Nat} {cells : Array SlotCell} {slot : Nat} {tag : Tag}

/- Planned rooms are rooms enough. -/
theorem sound (hCells : PlacedCells plan cells) : SoundCells cells where
  paired := hCells.paired
  roomy := by
    intro slot room hRoom
    have hPositive := plannedRoom_pos plan slot
    rw [hCells.room slot room hRoom]
    exact ⟨hPositive, (Tag.enough_of_payload (hCells.payload slot) hPositive).resolve_left⟩

/- Where every room is the planned one, payloads stand where there is room for them. -/
theorem of_sound (hCells : SoundCells cells)
    (hRooms : ∀ slot room, roomAt cells slot = some room → room = plannedRoom plan slot) :
    PlacedCells plan cells where
  paired := hCells.paired
  room := hRooms
  payload := by
    intro slot hPayload
    have hInside : slot < cells.size := by
      refine Nat.lt_of_not_le fun hSize => ?_
      rw [tagIn_of_size_le hSize] at hPayload
      cases hPayload
    rcases exists_roomAt hInside with ⟨room, hRoom⟩
    have hHeld := (hCells.roomy slot room hRoom).held fun hWide =>
      Tag.not_payload_of_wide hWide hPayload
    rw [Tag.dstWidth_of_isPayload hPayload] at hHeld
    rw [← hRooms slot room hRoom]
    exact hHeld

/- The rooms of the first cells are the planned ones. -/
theorem take_rooms (hCells : PlacedCells plan cells) (hSlot : slot ≤ cells.size) :
    total ((cells.toList.take slot).map SlotCell.room) = planned plan slot := by
  apply SlotMap.take_rooms
  intro other hOther
  rcases exists_roomAt (Nat.lt_of_lt_of_le hOther hSlot) with ⟨room, hRoom⟩
  rw [hRoom, hCells.room other room hRoom]

/- The address that a snapshot gives a slot is the planned one. -/
theorem snapshot_address (hCells : PlacedCells plan cells) (hSlot : slot ≤ cells.size) :
    (SlotSnapshot.mk cells).address slot = planned plan slot := by
  unfold SlotSnapshot.address
  rw [hCells.take_rooms hSlot]
  simp only
  omega

/- Beyond the last cell that holds only as far as all planned rooms are one. -/
theorem snapshot_address_iff (hCells : PlacedCells plan cells) (slot : Nat) :
    (SlotSnapshot.mk cells).address slot = planned plan slot ↔
      ∀ other, cells.size ≤ other → other < slot → plannedRoom plan other = 1 := by
  rcases Nat.le_total slot cells.size with hInside | hBeyond
  · exact ⟨fun _ _ _ _ => by omega, fun _ => hCells.snapshot_address hInside⟩
  · obtain ⟨width, rfl⟩ := Nat.exists_eq_add_of_le hBeyond
    have hRooms := hCells.take_rooms (Nat.le_refl _)
    rw [take_of_length_le (by simp)] at hRooms
    rw [SlotSnapshot.address, take_of_length_le (by simp), hRooms, Nat.add_sub_cancel_left]
    exact (planned_add_width plan cells.size width).2

theorem empty : PlacedCells plan #[] :=
  of_sound .empty (by simp [roomAt])

theorem detach (hCells : PlacedCells plan cells) (slot : Nat) :
    PlacedCells plan (detach cells slot) :=
  of_sound (hCells.sound.detach slot) (by simpa using hCells.room)

end PlacedCells

/- The cells of a value lie within the rooms of its slots. -/
theorem planned_add_dstWidth {plan : Array Nat} {slot : Nat} {tag : Tag}
    (hRoom : tag.HasRoom plan slot) :
    planned plan slot + tag.dstWidth ≤ planned plan (slot + tag.srcWidth) := by
  have hFirst := plannedRoom_pos plan slot
  have hSecond := plannedRoom_pos plan (slot + 1)
  have hTwo := tag.dstWidth_le_two
  by_cases hWide : tag.isSrcWide = true
  · rw [(Tag.srcWidth_eq_two tag).mpr hWide, planned_succ, planned_succ]
    omega
  · have hEnough := (Tag.enough_of_payload hRoom hFirst).resolve_left hWide
    rw [Tag.srcWidth_eq_one hWide, planned_succ]
    omega

namespace SlotMap

-- Maps that follow a plan

/- A map with a plan, whose cells and addresses follow it. -/
structure Placed (plan : Array Nat) (map : SlotMap) : Prop where
  plan_eq : map.plan = plan
  cells : PlacedCells plan map.cells
  addresses : map.addresses = (addressesFrom 0 map.cells.toList).toArray

namespace Placed

variable {plan : Array Nat} {map : SlotMap} {slot : Nat} {tag : Tag}
variable {cells : Array SlotCell} {name : Option String} {after : SlotMap}

section

variable (hPlaced : Placed plan map)
include hPlaced

theorem room_eq (slot : Nat) : map.room slot = Unboxing.plannedRoom plan slot := by
  unfold room
  split
  · rename_i cell hCell
    exact hPlaced.cells.room slot _ (by simp [roomAt, hCell])
  · rw [plannedRoom_eq, hPlaced.plan_eq]

theorem address_eq (slot : Nat) : map.address slot = planned plan slot := by
  have hRooms : map.room = Unboxing.plannedRoom plan := funext hPlaced.room_eq
  rw [address_of_table hPlaced.addresses, hRooms, planned]

/- The address of a slot with a cell, and of the end. -/
theorem addresses_getElem? (hSlot : slot ≤ map.cells.size) :
    map.addresses[slot]? = some (planned plan slot) := by
  rw [addresses_of_table hPlaced.addresses, size, if_pos hSlot,
    ← address_of_table hPlaced.addresses, hPlaced.address_eq]

/- A value fits where there is room for it if it is a payload. -/
theorem fits (hRoom : tag.HasRoom plan slot) :
    map.fits slot tag = true := by
  rw [fits_eq_true, hPlaced.room_eq]
  exact (Tag.enough_of_payload hRoom (plannedRoom_pos plan slot)).imp_right .inr

-- Edits

theorem withCells (hCells : PlacedCells plan cells) :
    Placed plan (map.withCells cells) where
  plan_eq := hPlaced.plan_eq
  cells := hCells
  addresses := rfl

theorem clear : Placed plan map.clear :=
  hPlaced.withCells .empty

theorem restore {snapshot : SlotSnapshot} (hCells : PlacedCells plan snapshot.cells) :
    Placed plan (map.restore snapshot) :=
  hPlaced.withCells hCells

end

theorem kill (hPlaced : Placed plan map) (slot : Nat) :
    Placed plan (map.kill slot) where
  plan_eq := hPlaced.plan_eq
  cells := hPlaced.cells.detach slot
  addresses := by
    simp only [SlotMap.kill]
    rw [hPlaced.addresses, addressesFrom_congr (roomAt_detach map.cells slot)]

theorem forgetName (hPlaced : Placed plan map) (name : String) :
    Placed plan (map.forgetName name) where
  plan_eq := hPlaced.plan_eq
  cells := by
    refine ⟨paired_forgetName hPlaced.cells.paired name, ?_, ?_⟩
    · simpa [roomAt_forgetName] using hPlaced.cells.room
    · intro slot hPayload
      rw [← tagAt_eq, tagAt_forgetName] at hPayload
      exact hPlaced.cells.payload slot hPayload
  addresses := by
    rw [addressesFrom_congr (roomAt_forgetName map name)]
    exact hPlaced.addresses

-- Storing a variable

/- A variable that has the room it needs does not grow. -/
theorem grow_eq (hRooms : ∀ other room, roomAt cells other = some room →
      room = Unboxing.plannedRoom plan other)
    (hInside : slot + tag.srcWidth ≤ cells.size)
    (hRoom : tag.HasRoom plan slot) :
    grow cells slot tag = cells := by
  have hWidth := tag.srcWidth_pos
  rcases exists_roomAt (show slot < cells.size by omega) with ⟨room, hHere⟩
  rw [SoundCells.grow_eq _ hInside hHere, if_pos]
  · rw [hRooms slot room hHere]
    exact Tag.enough_of_payload hRoom (plannedRoom_pos plan slot)
  · intro other found hFound
    rw [hRooms other found hFound]
    exact plannedRoom_pos plan other

section

variable (hPlaced : Placed plan map)
include hPlaced

theorem room_stored (other : Nat) {room : Nat}
    (hRoom : roomAt (stored map slot tag name) other = some room) :
    room = Unboxing.plannedRoom plan other := by
  have hSame : (map.withCells (stored map slot tag name)).room other = map.room other :=
    SlotMap.room_stored slot tag name other
  rw [room_eq_getD, withCells_cells, hRoom, hPlaced.room_eq] at hSame
  exact hSame

theorem grow_stored (name : Option String)
    (hRoom : tag.HasRoom plan slot) :
    grow (stored map slot tag name) slot tag = stored map slot tag name := by
  exact grow_eq (fun other room => hPlaced.room_stored other)
    (end_le_size_stored map slot tag name) hRoom

/- Storing a variable follows the plan. -/
theorem stored_placed
    (hRoom : tag.HasRoom plan slot) :
    PlacedCells plan (stored map slot tag name) := by
  have hSound := hPlaced.cells.sound.grow_stored slot tag name
  rw [hPlaced.grow_stored name hRoom] at hSound
  exact .of_sound hSound fun other room => hPlaced.room_stored other

/- A variable is stored, at its planned address. -/
theorem put_eq (name : Option String)
    (hRoom : tag.HasRoom plan slot) :
    map.put slot tag name =
      some (planned plan slot, map.withCells (stored map slot tag name)) := by
  have hSize : slot ≤ (stored map slot tag name).size :=
    Nat.le_of_add_right_le (end_le_size_stored map slot tag name)
  rw [put_eq_some, hPlaced.grow_stored name hRoom]
  refine ⟨hPlaced.fits hRoom, rfl, ?_⟩
  rw [(hPlaced.withCells (hPlaced.stored_placed hRoom)).addresses_getElem? hSize, Option.getD_some]

theorem put {address : Nat}
    (hRoom : tag.HasRoom plan slot)
    (hPut : map.put slot tag name = some (address, after)) :
    Placed plan after := by
  rw [hPlaced.put_eq name hRoom] at hPut
  cases hPut
  exact hPlaced.withCells (hPlaced.stored_placed hRoom)

/- A tag is changed in place. -/
theorem retag?_eq (hUsed : (map.tagAt slot).isVoid = false)
    (hWidth : (map.tagAt slot).srcWidth = tag.srcWidth)
    (hRoom : tag.HasRoom plan slot) :
    ∃ after, map.retag? slot tag = some after ∧ Placed plan after ∧
      ∀ other, after.tagAt other = if slot = other then tag else map.tagAt other := by
  rcases exists_head hUsed with ⟨name, hContent⟩
  rw [← tagAt_eq] at hContent
  have hEnd := hPlaced.cells.paired.end_of_head hContent
  have hRooms : ∀ other room,
      roomAt (setContent map.cells slot (.head tag name)) other = some room →
        room = Unboxing.plannedRoom plan other := by
    simpa using hPlaced.cells.room
  have hGrow : grow (setContent map.cells slot (.head tag name)) slot tag =
      setContent map.cells slot (.head tag name) :=
    grow_eq hRooms (by rw [size_setContent, ← hWidth]; exact hEnd) hRoom
  have hSound := hPlaced.cells.sound.grow_setContent name hContent hWidth
  rw [hGrow] at hSound
  refine ⟨_, retag?_eq_some.mpr ⟨_, name, hContent, hUsed, hWidth, hPlaced.fits hRoom, rfl⟩, ?_⟩
  rw [hGrow]
  refine ⟨hPlaced.withCells (.of_sound hSound hRooms), fun other => ?_⟩
  rw [tagAt_eq]
  exact tagIn_setContent (lt_size_of_contentAt hContent) _ other

theorem retag? (hRoom : tag.HasRoom plan slot)
    (hRetag : map.retag? slot tag = some after) :
    Placed plan after := by
  rcases retag?_eq_some.mp hRetag with ⟨old, name, hContent, hUsed, hWidth, _⟩
  have hTag : map.tagAt slot = old := tagIn_of_content hContent
  rw [← hTag] at hUsed hWidth
  rcases hPlaced.retag?_eq hUsed hWidth hRoom with ⟨same, hSame, hAfter, _⟩
  rw [hRetag] at hSame
  cases hSame
  exact hAfter

/- The values of all slots lie before the scratch locals. -/
theorem address_le_dstSize (hUsed : (map.tagAt slot).isVoid = false) :
    planned plan slot + (map.tagAt slot).dstWidth ≤ map.dstSize := by
  calc planned plan slot + (map.tagAt slot).dstWidth
    _ ≤ planned plan (slot + (map.tagAt slot).srcWidth) :=
        planned_add_dstWidth (hPlaced.cells.payload slot)
    _ ≤ planned plan map.cells.size :=
        planned_mono plan (hPlaced.cells.paired.end_le_size hUsed)
    _ = map.dstSize := by
        rw [dstSize, hPlaced.addresses_getElem? (Nat.le_refl _)]
        rfl

end

end Placed

end SlotMap

-- Declared tags

/- What two tags can agree on. -/
theorem Tag.merge_cases (current declared : Tag) (payloadFits : Bool) :
    let merged := current.merge declared payloadFits
    merged = .void ∨ merged = declared ∨ (merged = declared.payloadOf ∧ payloadFits = true) ∨
      merged = current := by
  unfold merge
  repeat' split
  all_goals simp_all

/- What is agreed on is a payload only if it was one or one fits. -/
theorem Tag.merge_payload {current declared : Tag} {payloadFits : Bool}
    (hNoPayload : ¬ declared.isPayload = true)
    (hPayload : (current.merge declared payloadFits).isPayload = true) :
    current.merge declared payloadFits = current ∨ payloadFits = true := by
  rcases current.merge_cases declared payloadFits with hNone | hSame | ⟨_, hFits⟩ | hKept
  · rw [hNone] at hPayload
    cases hPayload
  · rw [hSame] at hPayload
    exact absurd hPayload hNoPayload
  · exact .inr hFits
  · exact .inl hKept

namespace Registry

theorem tagOfClass_not_payload (reg : Registry) (name : ClassName) :
    ¬ (reg.tagOfClass name).hasPayloadKind = true := by
  unfold tagOfClass
  split <;> simp [Tag.reference, Tag.object, Tag.hasPayloadKind]

theorem tagOfBase_not_payload (type : BaseType) :
    ¬ (tagOfBase type).hasPayloadKind = true := by
  cases type <;> decide

/- Declared references are never unboxed. -/
theorem tagOfRef_not_payload (reg : Registry) (type : RefType) :
    ¬ (reg.tagOfRef type).hasPayloadKind = true := by
  cases type with
  | object name => exact reg.tagOfClass_not_payload name
  | array more element =>
    cases element with
    | base type => exact tagOfBase_not_payload type
    | object name => exact reg.tagOfClass_not_payload name

theorem tagOf_not_payload (reg : Registry) (type : FieldType) :
    ¬ (reg.tagOf type).hasPayloadKind = true := by
  cases type with
  | base type => exact tagOfBase_not_payload type
  | ref type => exact reg.tagOfRef_not_payload type

theorem tagOfFrame_not_payload (reg : Registry) (type : FrameType) :
    ¬ (reg.tagOfFrame type).hasPayloadKind = true := by
  cases type with
  | object type => exact reg.tagOfRef_not_payload type
  | _ => exact Bool.false_ne_true

end Registry

namespace SlotMap

-- Frames

section

variable {reg : Registry} {frame : Frame} {map : SlotMap}
variable {holds : SlotMap → Prop}

/- What is kept for each slot holds after narrowing to a frame. -/
theorem narrow_induct {good : Tag → Prop} (hVoid : good .void)
    (hTypes : ∀ type, good (reg.tagOfFrame type))
    (hStep : ∀ map slot tag, good tag → holds map → holds (map.narrowAt slot tag))
    (hMap : holds map) :
    holds (map.narrow reg frame) := by
  unfold SlotMap.narrow
  generalize List.range (max map.size frame.locals.cells) = slots
  induction slots generalizing map with
  | nil => exact hMap
  | cons slot slots ih =>
    apply ih
    apply hStep _ _ _ _ hMap
    cases frame.locals.startingAt? slot with
    | none => exact hVoid
    | some type => exact hTypes type

/- What is kept for each type holds of the locals that a frame declares. -/
theorem declaredLocals_induct
    (hPut : ∀ map slot type address after, holds map →
      map.put slot (reg.tagOfFrame type) none = some (address, after) → holds after)
    (hClear : holds map.clear) :
    holds (Simulation.declaredLocals reg frame map) := by
  unfold Simulation.declaredLocals
  generalize map.clear = start at hClear
  generalize frame.locals.entries = entries
  induction entries generalizing start with
  | nil => exact hClear
  | cons entry entries ih =>
    apply ih
    simp only
    split
    · exact hClear
    split
    · rename_i hSome
      exact hPut _ _ _ _ _ hClear hSome
    · exact hClear

end

namespace Placed

variable {plan : Array Nat} {map : SlotMap} {slot : Nat} {declared : Tag}

-- Parameters

section

variable (hPlaced : Placed plan map)
include hPlaced

/- A variable after the last slot follows the plan if it is no payload. -/
theorem add {tag : Tag} (name : Option String) (hNoPayload : ¬ tag.isPayload = true) :
    Placed plan (map.add tag name).2 := by
  have hPositive := plannedRoom_pos map.plan
  have hPlanned (slot : Nat) : map.plannedRoom slot = Unboxing.plannedRoom plan slot := by
    rw [plannedRoom_eq, hPlaced.plan_eq]
  unfold SlotMap.add
  by_cases hWide : tag.isSrcWide = true
  · rw [if_pos ((Tag.srcWidth_eq_two tag).mpr hWide)]
    apply hPlaced.withCells
    apply PlacedCells.of_sound (hPlaced.cells.sound.pushBoth hWide (hPositive _) (hPositive _))
    intro slot room hRoom
    rw [SoundCells.roomAt_push, SoundCells.roomAt_push, Array.size_push] at hRoom
    split at hRoom
    case isTrue hSecond =>
      cases hRoom
      rw [hSecond]
      exact hPlanned _
    case isFalse =>
      split at hRoom
      case isTrue hFirst =>
        cases hRoom
        rw [hFirst]
        exact hPlanned _
      case isFalse => exact hPlaced.cells.room slot room hRoom
  · have hRoom : max (map.plannedRoom map.size) tag.dstWidth = map.plannedRoom map.size := by
      rw [Tag.dstWidth_of_not_payload hWide hNoPayload]
      exact Nat.max_eq_left (hPositive map.size)
    rw [if_neg (fun hTwo => hWide ((Tag.srcWidth_eq_two tag).mp hTwo)), hRoom]
    apply hPlaced.withCells
    apply PlacedCells.of_sound (hPlaced.cells.sound.pushHead hWide (hPositive _) _)
    · intro slot room hRoom
      rw [SoundCells.roomAt_push] at hRoom
      split at hRoom
      case isTrue hLast =>
        cases hRoom
        rw [hLast]
        exact hPlanned _
      case isFalse => exact hPlaced.cells.room slot room hRoom
    · rw [Tag.dstWidth_of_not_payload hWide hNoPayload]
      exact hPositive _

-- Narrowing

/- A slot becomes a payload only if it has room for one. -/
theorem merge_room (hNoPayload : ¬ declared.isPayload = true)
    (hChanged : ¬ (map.tagAt slot).merge declared (2 ≤ map.room slot) = map.tagAt slot)
    (hPayload :
      ((map.tagAt slot).merge declared (2 ≤ map.room slot)).isPayload = true) :
    2 ≤ Unboxing.plannedRoom plan slot := by
  rcases Tag.merge_payload hNoPayload hPayload with hSame | hFits
  · exact absurd hSame hChanged
  · rw [decide_eq_true_iff, hPlaced.room_eq] at hFits
    exact hFits

theorem narrowAt (hNoPayload : ¬ declared.isPayload = true) :
    Placed plan (map.narrowAt slot declared) := by
  unfold SlotMap.narrowAt
  split
  · exact hPlaced
  · simp only []
    split
    · exact hPlaced
    · rename_i hChanged
      split
      · exact hPlaced.kill slot
      · have hRoom := hPlaced.merge_room hNoPayload hChanged
        rw [hPlaced.put_eq _ hRoom]
        exact hPlaced.withCells (hPlaced.stored_placed hRoom)

theorem narrow (reg : Registry) (frame : Frame) :
    Placed plan (map.narrow reg frame) :=
  narrow_induct nofun
    (fun type => Tag.not_payload_of_kind (reg.tagOfFrame_not_payload type))
    (fun _ _ _ hTag hPlaced => hPlaced.narrowAt hTag) hPlaced

theorem declaredLocals (reg : Registry) (frame : Frame) :
    Placed plan (Simulation.declaredLocals reg frame map) :=
  declaredLocals_induct
    (fun _ _ type _ _ hPlaced hPut => hPlaced.put (fun hPayload =>
      absurd hPayload (Tag.not_payload_of_kind (reg.tagOfFrame_not_payload type)))
      hPut)
    hPlaced.clear

end

end Placed

end SlotMap

-- The start of a body

namespace Method

variable {reg : Registry} {owner : ClassName} {good : Tag → Prop}

/- The receiver has the type of its class, the parameters those declared. -/
theorem initialVariables_all (method : Method) (hClass : good (reg.tagOfClass owner))
    (hTypes : ∀ type, good (reg.tagOf type)) :
    ∀ entry ∈ method.initialVariables reg owner, good entry.1 := by
  intro entry hEntry
  unfold initialVariables at hEntry
  rcases mem_append.mp hEntry with hReceiver | hParameter
  · split at hReceiver
    · cases hReceiver
    · rw [mem_singleton.mp hReceiver]
      exact hClass
  · rcases mem_map.mp hParameter with ⟨type, _, rfl⟩
    exact hTypes type

/- What is kept for each variable holds at the start of a body. -/
theorem initialLocals_induct {holds : SlotMap → Prop} (method : Method) (body : Body)
    (hClass : good (reg.tagOfClass owner))
    (hTypes : ∀ type, good (reg.tagOf type))
    (hAdd : ∀ map tag name, good tag → holds map → holds (map.add tag name).2)
    (hStart : holds
      (SlotMap.withPlan (slotPlan body (method.type.parameterCells !method.isStatic)))) :
    holds (method.initialLocals reg owner body) := by
  have hGood := method.initialVariables_all hClass hTypes
  unfold initialLocals
  generalize SlotMap.withPlan _ = start at hStart
  generalize method.initialVariables reg owner = entries at hGood
  induction entries generalizing start with
  | nil => exact hStart
  | cons entry entries ih =>
    rw [forall_mem_cons] at hGood
    exact ih _ (hAdd start _ _ hGood.1 hStart) hGood.2

/- The locals at the start of a body follow its plan. -/
theorem placed_initialLocals (method : Method) (reg : Registry) (owner : ClassName)
    (body : Body) :
    Placed (slotPlan body (method.type.parameterCells !method.isStatic))
      (method.initialLocals reg owner body) :=
  method.initialLocals_induct body (reg.tagOfClass_not_payload owner)
    reg.tagOf_not_payload
    (fun _ _ name hTag hPlaced => hPlaced.add name (Tag.not_payload_of_kind hTag))
    ⟨rfl, .empty, rfl⟩

end Method

end Unboxing
