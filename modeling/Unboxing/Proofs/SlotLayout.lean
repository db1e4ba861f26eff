import Unboxing.Proofs.SlotPlacement

/-
  The layout of a map of local variables, whatever its plan is
  and whatever is done to it. Slots keep apart: each owns at
  least one cell, addresses increase, and every owned cell leads
  back to its slot. Values in two slots keep both, and no value
  is wider than what its slots own. Taking variables off again
  that were just put at the end leads back to the map as it was,
  and storing or retagging a variable disturbs no other.

  Main declarations:
    * `SlotMap.Sound`
    * `SlotMap.Coherent`
    * `SlotMap.Session.run`
    * `SlotMap.Session.coherent_run`
    * `SlotMap.Session.removeLast_undoes_addAll`
    * `SlotMap.Fits`
    * `SlotMap.Session.edits_keep_others`
-/

namespace Unboxing

open List

namespace SlotMap

-- Sound maps

/- A map of sound cells, with their addresses and a peak that covers them. -/
structure Sound (map : SlotMap) : Prop where
  cells : SoundCells map.cells
  addresses : map.addresses = (addressesFrom 0 map.cells.toList).toArray
  peak : map.dstSize ≤ map.peak

theorem Sound.withCells (map : SlotMap) {cells : Array SlotCell}
    (hCells : SoundCells cells) :
    (map.withCells cells).Sound where
  cells := hCells
  addresses := rfl
  peak := Nat.le_max_right _ _

theorem Sound.withPlan (plan : Array Nat) : (SlotMap.withPlan plan).Sound where
  cells := SoundCells.empty
  addresses := rfl
  peak := Nat.le_refl 0

/- The peak never gets smaller with other cells. -/
theorem peak_le_withCells (map : SlotMap) (cells : Array SlotCell) :
    map.peak ≤ (map.withCells cells).peak :=
  Nat.le_max_left _ _

namespace Sound

variable {map : SlotMap} {slot : Nat} {tag : Tag} {after : SlotMap}
variable {first second : Nat}

section

variable (hMap : map.Sound)
include hMap

/- Sound cells with the same rooms have the same addresses. -/
theorem sameRooms {cells : Array SlotCell} (hCells : SoundCells cells)
    (hRooms : ∀ slot, roomAt cells slot = roomAt map.cells slot)
    (hSize : cells.size = map.cells.size) :
    ({ map with cells := cells } : SlotMap).Sound where
  cells := hCells
  addresses := by
    rw [hMap.addresses, addressesFrom_congr hRooms]
  peak := by
    have hPeak := hMap.peak
    simp only [dstSize] at hPeak ⊢
    rw [hSize]
    exact hPeak

theorem kill (slot : Nat) : (map.kill slot).Sound :=
  hMap.sameRooms (hMap.cells.detach slot) (roomAt_detach map.cells slot)
    (size_detach map.cells slot)

theorem forgetName (name : String) : (map.forgetName name).Sound := by
  refine hMap.sameRooms ⟨paired_forgetName hMap.cells.paired name, ?_⟩
    (roomAt_forgetName map name) (by simp)
  intro slot room hRoom
  have hOld : roomAt map.cells slot = some room := by
    rw [← roomAt_forgetName map name]
    exact hRoom
  exact (hMap.cells.roomy slot room hOld).mono (tagAt_forgetName map name slot)
    (Nat.le_refl _)

theorem put {address : Nat} {name : Option String}
    (hPut : map.put slot tag name = some (address, after)) :
    after.Sound ∧ map.peak ≤ after.peak := by
  rcases put_eq_some.mp hPut with ⟨_, rfl, _⟩
  exact ⟨Sound.withCells map (hMap.cells.grow_stored slot tag name), peak_le_withCells map _⟩

theorem retag? (hRetag : map.retag? slot tag = some after) :
    after.Sound ∧ map.peak ≤ after.peak := by
  rcases retag?_eq_some.mp hRetag with ⟨old, name, hOld, _, hWidth, _, rfl⟩
  have hGrown := hMap.cells.grow_setContent name hOld hWidth
  exact ⟨Sound.withCells map hGrown, peak_le_withCells map _⟩

theorem add (tag : Tag) (name : Option String) :
    (map.add tag name).2.Sound ∧ map.peak ≤ (map.add tag name).2.peak := by
  unfold SlotMap.add
  by_cases hWide : tag.isSrcWide = true
  · rw [if_pos ((Tag.srcWidth_eq_two tag).mpr hWide)]
    refine ⟨Sound.withCells map ?_, peak_le_withCells map _⟩
    exact hMap.cells.pushBoth hWide (plannedRoom_pos map.plan _) (plannedRoom_pos map.plan _)
  · rw [if_neg (fun hTwo => hWide ((Tag.srcWidth_eq_two tag).mp hTwo))]
    refine ⟨Sound.withCells map ?_, peak_le_withCells map _⟩
    have hRoom := plannedRoom_pos map.plan map.size
    exact hMap.cells.pushHead hWide (Nat.le_trans hRoom (Nat.le_max_left _ _))
      (Nat.le_max_right _ _)

theorem removeLast (count : Nat) : (map.removeLast count).Sound := by
  refine Sound.withCells map ?_
  generalize min count map.size = times
  induction times with
  | zero => exact hMap.cells
  | succ times ih => exact ih.dropVariable

-- Addresses

theorem room_pos (slot : Nat) : 1 ≤ map.room slot := by
  unfold room
  split
  case h_1 cell hCell =>
    exact (hMap.cells.roomy slot cell.room (by simp [roomAt, hCell])).positive
  case h_2 => exact plannedRoom_pos map.plan slot

theorem address_eq (slot : Nat) :
    map.address slot = total ((List.range slot).map map.room) :=
  address_of_table hMap.addresses slot

/- The table holds the address of every tracked slot and of the end. -/
theorem addresses_getElem? (slot : Nat) :
    map.addresses[slot]? = if slot ≤ map.size then some (map.address slot) else none := by
  rw [addresses_of_table hMap.addresses, ← hMap.address_eq]

theorem dstSize_eq_address : map.dstSize = map.address map.size := by
  rw [dstSize, ← size, hMap.addresses_getElem?, if_pos (Nat.le_refl _), Option.getD_some]

theorem address_succ (slot : Nat) :
    map.address (slot + 1) = map.address slot + map.room slot := by
  rw [hMap.address_eq, hMap.address_eq, range_succ]
  simp

theorem address_lt (hLt : first < second) :
    map.address first < map.address second := by
  induction second with
  | zero => omega
  | succ second ih =>
    have hRoom := hMap.room_pos second
    have hNext := hMap.address_succ second
    rcases Nat.lt_succ_iff_lt_or_eq.mp hLt with hBefore | hSame
    · have hSecond := ih hBefore
      omega
    · subst hSame
      omega

theorem address_mono (hLe : first ≤ second) :
    map.address first ≤ map.address second := by
  rcases Nat.lt_or_eq_of_le hLe with hLt | hSame
  · exact Nat.le_of_lt (hMap.address_lt hLt)
  · exact Nat.le_of_eq (congrArg map.address hSame)

theorem le_address (slot : Nat) :
    slot ≤ map.address slot := by
  induction slot with
  | zero => exact Nat.zero_le _
  | succ slot ih =>
    have hRoom := hMap.room_pos slot
    rw [hMap.address_succ]
    omega

theorem addresses_size : map.addresses.size = map.size + 1 := by
  have hEnd := hMap.addresses_getElem? (map.size + 1)
  have hLast := hMap.addresses_getElem? map.size
  rw [if_neg (by omega), Array.getElem?_eq_none_iff] at hEnd
  rw [if_pos (Nat.le_refl _)] at hLast
  rcases Array.getElem?_eq_some_iff.mp hLast with ⟨hBound, _⟩
  omega

theorem addresses_getElem (hBound : slot < map.addresses.toList.length) :
    map.addresses.toList[slot] = map.address slot := by
  have hAt := hMap.addresses_getElem? slot
  rw [← Array.getElem?_toList, getElem?_eq_getElem hBound] at hAt
  split at hAt
  · exact Option.some.inj hAt
  · cases hAt

/- The first address after a cell is that of the slot after its owner. -/
theorem findIdx?_addresses {cell slot : Nat} :
    map.addresses.toList.findIdx? (cell < ·) = some (slot + 1) ↔
      slot < map.size ∧ map.address slot ≤ cell ∧ cell < map.address (slot + 1) := by
  have hLength : map.addresses.toList.length = map.size + 1 := hMap.addresses_size
  rw [findIdx?_eq_some_iff_getElem]
  simp only [hMap.addresses_getElem, decide_eq_true_eq, Nat.not_lt]
  constructor
  · rintro ⟨hBound, hAfter, hBefore⟩
    exact ⟨by omega, hBefore slot (by omega), hAfter⟩
  · rintro ⟨hSlot, hFrom, hTo⟩
    refine ⟨by omega, hTo, ?_⟩
    intro other hOther
    exact Nat.le_trans (hMap.address_mono (by omega)) hFrom

/- A cell belongs to a slot exactly if it lies between two addresses. -/
theorem slotOf?_eq_some {cell slot : Nat} :
    map.slotOf? cell = some slot ↔
      slot < map.size ∧ map.address slot ≤ cell ∧ cell < map.address (slot + 1) := by
  unfold slotOf?
  rw [hMap.dstSize_eq_address, ← hMap.findIdx?_addresses]
  have hStart : map.address 0 = 0 := by
    rw [hMap.address_eq]
    rfl
  by_cases hOutside : map.address map.size ≤ cell
  · rw [if_pos hOutside]
    constructor
    · intro hNone
      cases hNone
    · intro hFound
      rcases hMap.findIdx?_addresses.mp hFound with ⟨hSlot, _, hTo⟩
      have hMono := hMap.address_mono (show slot + 1 ≤ map.size from hSlot)
      omega
  · rw [if_neg hOutside, Option.map_eq_some_iff]
    constructor
    · rintro ⟨found, hFound, hSlot⟩
      -- The first address is never after the cell.
      cases found with
      | zero =>
        rcases findIdx?_eq_some_iff_getElem.mp hFound with ⟨hBound, hAfter, _⟩
        rw [hMap.addresses_getElem, hStart, decide_eq_true_eq] at hAfter
        exact absurd hAfter (Nat.not_lt_zero cell)
      | succ found =>
        rw [Nat.add_sub_cancel] at hSlot
        rw [← hSlot]
        exact hFound
    · intro hFound
      exact ⟨slot + 1, hFound, Nat.add_sub_cancel slot 1⟩

/- Two slots have room for any value. -/
theorem enough_iff (slot : Nat) (tag : Tag) :
    tag.dstWidth ≤ map.span slot tag.srcWidth ↔
      tag.isSrcWide = true ∨ tag.dstWidth ≤ map.room slot := by
  have hFirst := hMap.room_pos slot
  have hSecond := hMap.room_pos (slot + 1)
  have hTwo := tag.dstWidth_le_two
  by_cases hWide : tag.isSrcWide = true
  · simp only [span, (Tag.srcWidth_eq_two tag).mpr hWide, range'_succ, range'_zero,
      map_cons, map_nil, total_cons, total_nil, hWide, true_or, iff_true]
    omega
  · simp [span, Tag.srcWidth_eq_one hWide, hWide]

/- A variable is no wider than what its slots own. -/
theorem dstWidth_le_span (hVar : (slot, tag) ∈ map.vars) :
    tag.dstWidth ≤ map.span slot tag.srcWidth := by
  rcases mem_varsOf.mp hVar with ⟨hTag, hUsed⟩
  have hInside : slot < map.size := lt_size_of_tagIn (hTag.symm ▸ hUsed)
  have hHeld := (hMap.cells.roomy slot _ (roomAt_of_lt hInside)).held
  rw [hTag] at hHeld
  rw [hMap.enough_iff]
  by_cases hWide : tag.isSrcWide = true
  · exact .inl hWide
  · exact .inr (hHeld hWide)

end

end Sound

-- Coherent maps

/-
  What holds of the slots and addresses of a map, seen from
  outside: both ways between slots and cells, the halves of
  values in two slots, and the width of values.
-/
structure Coherent (map : SlotMap) : Prop where
  room_pos : ∀ (slot : Nat) (cell : SlotCell), map.cells[slot]? = some cell → 1 ≤ cell.room
  addresses_size : map.addresses.size = map.size + 1
  addresses_sum : ∀ slot ≤ map.size,
    map.addresses[slot]? = some (total ((map.cells.toList.take slot).map SlotCell.room))
  address_lt : ∀ first second, first < second → map.address first < map.address second
  le_address : ∀ slot, slot ≤ map.address slot
  slotOf?_iff : ∀ cell slot, map.slotOf? cell = some slot ↔
    slot < map.size ∧ map.address slot ≤ cell ∧ cell < map.address (slot + 1)
  slotOf?_address : ∀ slot < map.size, map.slotOf? (map.address slot) = some slot
  first_half : map.isTail 0 = false
  second_half : ∀ slot, map.isTail (slot + 1) = true ↔
    ∃ tag name, map.content? slot = some (.head tag name) ∧ tag.srcWidth = 2
  width_le : ∀ slot tag, (slot, tag) ∈ map.vars → tag.dstWidth ≤ map.span slot tag.srcWidth
  dstSize_le : map.dstSize ≤ map.peak

theorem Sound.coherent {map : SlotMap} (hMap : map.Sound) :
    map.Coherent where
  room_pos := by
    intro slot cell hCell
    exact (hMap.cells.roomy slot cell.room (by simp [roomAt, hCell])).positive
  addresses_size := hMap.addresses_size
  addresses_sum := by
    intro slot hSlot
    rw [addresses_of_table hMap.addresses, if_pos hSlot,
      take_rooms fun other hOther => roomAt_of_lt (Nat.lt_of_lt_of_le hOther hSlot)]
  address_lt := fun _ _ => hMap.address_lt
  le_address := hMap.le_address
  slotOf?_iff := fun _ _ => hMap.slotOf?_eq_some
  slotOf?_address := by
    intro slot hSlot
    exact hMap.slotOf?_eq_some.mpr
      ⟨hSlot, Nat.le_refl _, hMap.address_lt (Nat.lt_succ_self slot)⟩
  first_half := by
    rw [isTail, beq_eq_false_iff_ne]
    exact hMap.cells.paired.first
  second_half := by
    intro slot
    rw [isTail, beq_iff_eq, content?_eq, content?_eq, hMap.cells.paired.later]
    rcases contentAt map.cells slot with _ | ⟨tag, name⟩ | _
    · simp
    · simp [SlotContent.isWide, Tag.srcWidth_eq_two]
    · simp [SlotContent.isWide]
  width_le := fun _ _ => hMap.dstWidth_le_span
  dstSize_le := hMap.peak

-- Series of edits

/- An edit of a map, or a use of the snapshots made so far, by number. -/
inductive Command where
  | add (tag : Tag) (name : Option String)
  | put (slot : Nat) (tag : Tag) (name : Option String)
  | retag (slot : Nat) (tag : Tag)
  | kill (slot : Nat)
  | forgetName (name : String)
  | removeLast (count : Nat)
  | clear
  | save
  | restore (number : Nat)

/- A map and the snapshots of it that were made on the way. -/
structure Session where
  map : SlotMap
  snapshots : List SlotSnapshot

namespace Session

variable {session : Session}

/- A map without variables, before any snapshot. -/
def start (plan : Array Nat) : Session :=
  ⟨withPlan plan, []⟩

/- The session after a command. A value that does not fit changes nothing. -/
def perform (session : Session) : Command → Session
  | .add tag name => { session with map := (session.map.add tag name).2 }
  | .put slot tag name =>
    { session with map := ((session.map.put slot tag name).map Prod.snd).getD session.map }
  | .retag slot tag =>
    { session with map := (session.map.retag? slot tag).getD session.map }
  | .kill slot => { session with map := session.map.kill slot }
  | .forgetName name => { session with map := session.map.forgetName name }
  | .removeLast count => { session with map := session.map.removeLast count }
  | .clear => { session with map := session.map.clear }
  | .save => { session with snapshots := session.snapshots ++ [session.map.save] }
  | .restore number =>
    { session with
      map := (session.snapshots[number]?.map session.map.restore).getD session.map }

def run (session : Session) (commands : List Command) : Session :=
  commands.foldl perform session

/- The map and every snapshot are sound. -/
structure Sound (session : Session) : Prop where
  map : session.map.Sound
  snapshots : ∀ snapshot ∈ session.snapshots, SoundCells snapshot.cells

theorem Sound.start (plan : Array Nat) : (Session.start plan).Sound :=
  ⟨SlotMap.Sound.withPlan plan, by simp [Session.start]⟩

/- One command keeps the session sound, and never lowers the peak. -/
theorem Sound.perform (hSession : session.Sound) (command : Command) :
    (session.perform command).Sound ∧ session.map.peak ≤ (session.perform command).map.peak := by
  have hMap := hSession.map
  cases command with
  | add tag name =>
    rcases hMap.add tag name with ⟨hAfter, hPeak⟩
    exact ⟨⟨hAfter, hSession.snapshots⟩, hPeak⟩
  | put slot tag name =>
    simp only [Session.perform]
    rcases hPut : session.map.put slot tag name with _ | ⟨address, after⟩
    · exact ⟨hSession, Nat.le_refl _⟩
    · rcases hMap.put hPut with ⟨hAfter, hPeak⟩
      exact ⟨⟨hAfter, hSession.snapshots⟩, hPeak⟩
  | retag slot tag =>
    simp only [Session.perform]
    rcases hRetag : session.map.retag? slot tag with _ | after
    · exact ⟨hSession, Nat.le_refl _⟩
    · rcases hMap.retag? hRetag with ⟨hAfter, hPeak⟩
      exact ⟨⟨hAfter, hSession.snapshots⟩, hPeak⟩
  | kill slot => exact ⟨⟨hMap.kill slot, hSession.snapshots⟩, Nat.le_refl _⟩
  | forgetName name => exact ⟨⟨hMap.forgetName name, hSession.snapshots⟩, Nat.le_refl _⟩
  | removeLast count =>
    exact ⟨⟨hMap.removeLast count, hSession.snapshots⟩, peak_le_withCells session.map _⟩
  | clear =>
    exact ⟨⟨SlotMap.Sound.withCells session.map SoundCells.empty, hSession.snapshots⟩,
      peak_le_withCells session.map _⟩
  | save =>
    refine ⟨⟨hMap, forall_mem_append.mpr ⟨hSession.snapshots, ?_⟩⟩, Nat.le_refl _⟩
    exact forall_mem_singleton.mpr hMap.cells
  | restore number =>
    simp only [Session.perform]
    rcases hSnapshot : session.snapshots[number]? with _ | snapshot
    · exact ⟨hSession, Nat.le_refl _⟩
    · have hCells := hSession.snapshots snapshot (mem_of_getElem? hSnapshot)
      exact ⟨⟨SlotMap.Sound.withCells session.map hCells, hSession.snapshots⟩,
        peak_le_withCells session.map _⟩

theorem Sound.run (hSession : session.Sound) (commands : List Command) :
    (session.run commands).Sound := by
  induction commands generalizing session with
  | nil => exact hSession
  | cons command commands ih => exact ih (hSession.perform command).1

/-
  Whatever the plan and the commands, the map is coherent, and
  no next command lowers its peak.
-/
theorem coherent_run
    (plan : Array Nat)
    (commands : List Command) :
    let session := (Session.start plan).run commands
    session.map.Coherent ∧ ∀ command, session.map.peak ≤ (session.perform command).map.peak := by
  intro session
  have hSession : session.Sound := (Sound.start plan).run commands
  exact ⟨hSession.map.coherent, fun command => (hSession.perform command).2⟩

end Session

-- Variables at the end

variable {map : SlotMap}

/- Put variables after the last slot, one after another. -/
def addAll (map : SlotMap) (entries : List (Tag × Option String)) : SlotMap :=
  entries.foldl (fun map entry => (map.add entry.1 entry.2).2) map

@[simp] theorem addAll_cons (map : SlotMap) (entry : Tag × Option String)
    (entries : List (Tag × Option String)) :
    map.addAll (entry :: entries) = (map.add entry.1 entry.2).2.addAll entries :=
  rfl

theorem plan_add (map : SlotMap) (tag : Tag) (name : Option String) :
    (map.add tag name).2.plan = map.plan := by
  unfold add
  split <;> rfl

/- Each variable takes a slot at least. -/
theorem size_lt_add (map : SlotMap) (tag : Tag) (name : Option String) :
    map.size < (map.add tag name).2.size := by
  unfold add
  split
  · simp only [size, withCells_cells, Array.size_push]
    omega
  · simp only [size, withCells_cells, Array.size_push]
    omega

/- Taking the last variable off undoes putting one there. -/
theorem dropVariable_add (map : SlotMap) (tag : Tag) (name : Option String) :
    dropVariable (map.add tag name).2.cells = map.cells := by
  unfold add
  split
  · simp only [withCells_cells, dropVariable, Array.back?_push, Option.map_some, Array.pop_push]
  · simp only [withCells_cells, dropVariable, Array.back?_push, Option.map_some, Array.pop_push]

/- What is put at the end depends on the cells and the plan only. -/
theorem add_congr {first second : SlotMap} (hCells : first.cells = second.cells)
    (hPlan : first.plan = second.plan) (tag : Tag) (name : Option String) :
    (first.add tag name).2.cells = (second.add tag name).2.cells := by
  unfold add
  simp only [size, plannedRoom, hCells, hPlan]
  split <;> rfl

theorem plan_addAll (map : SlotMap) (entries : List (Tag × Option String)) :
    (map.addAll entries).plan = map.plan := by
  induction entries generalizing map with
  | nil => rfl
  | cons entry entries ih => rw [addAll_cons, ih, plan_add]

theorem size_addAll (map : SlotMap) (entries : List (Tag × Option String)) :
    map.size + entries.length ≤ (map.addAll entries).size := by
  induction entries generalizing map with
  | nil => exact Nat.le_refl _
  | cons entry entries ih =>
    have hOne := map.size_lt_add entry.1 entry.2
    have hRest := ih (map.add entry.1 entry.2).2
    rw [addAll_cons, length_cons]
    omega

theorem addAll_congr {first second : SlotMap} (hCells : first.cells = second.cells)
    (hPlan : first.plan = second.plan) (entries : List (Tag × Option String)) :
    (first.addAll entries).cells = (second.addAll entries).cells := by
  induction entries generalizing first second with
  | nil => exact hCells
  | cons entry entries ih =>
    apply ih (add_congr hCells hPlan entry.1 entry.2)
    rw [plan_add, plan_add, hPlan]

/- Taking variables off, the last one first, undoes putting them there. -/
theorem cells_removeLast_addAll (map : SlotMap) (entries : List (Tag × Option String)) :
    ((map.addAll entries).removeLast entries.length).cells = map.cells := by
  have hEnough := size_addAll map entries
  change Nat.repeat dropVariable (min entries.length (map.addAll entries).size)
    (map.addAll entries).cells = map.cells
  rw [Nat.min_eq_left (by omega)]
  clear hEnough
  induction entries generalizing map with
  | nil => rfl
  | cons entry entries ih =>
    change dropVariable (Nat.repeat dropVariable entries.length
      ((map.add entry.1 entry.2).2.addAll entries).cells) = map.cells
    rw [ih, dropVariable_add]

namespace Sound

theorem addAll (hMap : map.Sound) (entries : List (Tag × Option String)) :
    (map.addAll entries).Sound := by
  induction entries generalizing map with
  | nil => exact hMap
  | cons entry entries ih => exact ih (hMap.add entry.1 entry.2).1

/- The addresses of all slots follow from the cells and the plan. -/
theorem address_congr {first second : SlotMap} (hFirst : first.Sound) (hSecond : second.Sound)
    (hCells : first.cells = second.cells) (hPlan : first.plan = second.plan) (slot : Nat) :
    first.address slot = second.address slot := by
  have hRooms : first.room = second.room := by
    funext other
    rw [room_eq_getD, room_eq_getD, hCells, plannedRoom_eq, plannedRoom_eq, hPlan]
  rw [hFirst.address_eq, hSecond.address_eq, hRooms]

end Sound

namespace Session

/-
  Whatever was done to a map, taking variables off that were put
  at the end restores all cells and addresses, and putting them
  there again leads to the same cells and addresses as before.
-/
theorem removeLast_undoes_addAll
    (plan : Array Nat)
    (commands : List Command)
    (entries : List (Tag × Option String)) :
    let map := ((Session.start plan).run commands).map
    let added := map.addAll entries
    let removed := added.removeLast entries.length
    let again := removed.addAll entries
    removed.cells = map.cells ∧ (∀ slot, removed.address slot = map.address slot) ∧
      again.cells = added.cells ∧ ∀ slot, again.address slot = added.address slot := by
  intro map added removed again
  have hMap : map.Sound := ((Sound.start plan).run commands).map
  have hAdded : added.Sound := hMap.addAll entries
  have hRemoved : removed.Sound := hAdded.removeLast entries.length
  have hCells : removed.cells = map.cells := cells_removeLast_addAll map entries
  have hPlan : removed.plan = map.plan := plan_addAll map entries
  have hAgain : again.cells = added.cells := addAll_congr hCells hPlan entries
  have hAgainPlan : again.plan = added.plan := by
    rw [plan_addAll, plan_addAll, hPlan]
  exact ⟨hCells, hRemoved.address_congr hMap hCells hPlan, hAgain,
    (hRemoved.addAll entries).address_congr hAdded hAgain hAgainPlan⟩

end Session

-- Storing and retagging

open Placed (stored)

section

variable {after : SlotMap} {cells : Array SlotCell} {slot other : Nat} {tag old : Tag}
variable {name : Option String} {inWay : Nat → Tag → Prop}

/- No variable covers a slot. -/
def IsFree (map : SlotMap) (slot : Nat) : Prop :=
  ∀ content, map.content? slot = some content → content.isUsed = false

/-
  A value fits at a slot if the slots it takes have room for it,
  or if no variable covers a slot after that one.
-/
def Fits (map : SlotMap) (slot : Nat) (tag : Tag) : Prop :=
  tag.dstWidth ≤ map.span slot tag.srcWidth ∨ ∀ other, slot < other → map.IsFree other

theorem isFreeFrom_iff (map : SlotMap) (slot : Nat) :
    map.isFreeFrom slot = true ↔ ∀ other, slot ≤ other → map.IsFree other := by
  unfold isFreeFrom
  rw [all_eq_true]
  constructor
  · intro hFree other hOther content hContent
    rcases Option.map_eq_some_iff.mp hContent with ⟨cell, hCell, rfl⟩
    have hLater : (map.cells.toList.drop slot)[other - slot]? = some cell := by
      rw [getElem?_drop, Nat.add_sub_cancel' hOther, Array.getElem?_toList, hCell]
    simpa using hFree cell (mem_of_getElem? hLater)
  · intro hFree cell hCell
    rcases getElem?_of_mem hCell with ⟨index, hIndex⟩
    rw [getElem?_drop, Array.getElem?_toList] at hIndex
    have hUnused := hFree (slot + index) (Nat.le_add_right ..) cell.content
      (congrArg (Option.map SlotCell.content) hIndex)
    rw [hUnused]
    rfl

/- A variable after the slot of a value that fits leaves room enough. -/
theorem Fits.reaches (hFits : map.Fits slot tag) (hVar : (other, old) ∈ map.vars) :
    other ≤ slot ∨ tag.dstWidth ≤ map.span slot tag.srcWidth := by
  rcases hFits with hEnough | hLast
  · exact .inr hEnough
  · refine .inl (Nat.le_of_not_lt fun hLater => ?_)
    rcases mem_varsOf.mp hVar with ⟨rfl, hUsed⟩
    rcases exists_head hUsed with ⟨name, hHead⟩
    have hFree := hLast other hLater _ hHead
    rw [SlotContent.isUsed, hUsed] at hFree
    cases hFree

/-
  What an edit at a slot does. A variable stands there, at the
  address of the slot before, and elsewhere are the variables that
  were not in its way, as they were.
-/
structure Replaces (map after : SlotMap) (slot : Nat) (tag : Tag) (name : Option String)
    (inWay : Nat → Tag → Prop) : Prop where
  content : after.content? slot = some (.head tag name)
  address : after.address slot = map.address slot
  vars : ∀ other old, other ≠ slot →
    ((other, old) ∈ after.vars ↔ (other, old) ∈ map.vars ∧ ¬ inWay other old)
  kept : ∀ other old, (other, old) ∈ map.vars → ¬ inWay other old →
    after.content? other = map.content? other ∧ after.address other = map.address other

theorem mem_varsOf_congr {others : Array SlotCell}
    (hSame : contentAt others slot = contentAt cells slot) :
    (slot, tag) ∈ varsOf others ↔ (slot, tag) ∈ varsOf cells := by
  rw [mem_varsOf, mem_varsOf, tagIn, hSame, tagIn]

namespace Sound

variable (hMap : map.Sound)
include hMap

theorem fits_iff : map.fits slot tag = true ↔ map.Fits slot tag := by
  rw [fits_eq_true, Fits, hMap.enough_iff, isFreeFrom_iff, or_assoc]
  exact or_congr_right or_comm

section

variable (hInside : slot + tag.srcWidth ≤ cells.size)
variable (hRooms : ∀ other, (map.withCells cells).room other = map.room other)
include hInside hRooms

theorem grow_eq :
    grow cells slot tag = if tag.dstWidth ≤ map.span slot tag.srcWidth then cells
      else SoundCells.widen (cells.take (slot + 1)) slot (tag.dstWidth - map.room slot) := by
  have hSame (other room : Nat) (hRoom : roomAt cells other = some room) :
      map.room other = room := by
    rw [← hRooms, room_eq_getD, withCells_cells, hRoom, Option.getD_some]
  have hWidth := tag.srcWidth_pos
  rcases exists_roomAt (show slot < cells.size by omega) with ⟨room, hRoom⟩
  rw [SoundCells.grow_eq _ hInside hRoom, ← hSame slot room hRoom]
  · simp only [hMap.enough_iff]
  · intro other found hFound
    rw [← hSame other found hFound]
    exact hMap.room_pos other

/- Up to the slot, and everywhere if the value need not grow, contents stay. -/
theorem contentAt_grow
    (hOther : other ≤ slot ∨ tag.dstWidth ≤ map.span slot tag.srcWidth) :
    contentAt (grow cells slot tag) other = contentAt cells other := by
  rw [hMap.grow_eq hInside hRooms]
  split
  · rfl
  · rw [SoundCells.contentAt_widen, SoundCells.contentAt_take, if_pos (by omega)]

/- Elsewhere they may be cut off. -/
theorem contentAt_grow_or (other : Nat) :
    contentAt (grow cells slot tag) other = contentAt cells other ∨
      contentAt (grow cells slot tag) other = none := by
  rw [hMap.grow_eq hInside hRooms]
  split
  · exact .inl rfl
  · rw [SoundCells.contentAt_widen, SoundCells.contentAt_take]
    split
    · exact .inl rfl
    · exact .inr rfl

theorem address_grow
    (hOther : other ≤ slot ∨ tag.dstWidth ≤ map.span slot tag.srcWidth) :
    (map.withCells (grow cells slot tag)).address other = map.address other := by
  rw [address_of_table rfl, hMap.address_eq]
  congr 1
  apply map_congr_left
  intro before hBefore
  rw [mem_range] at hBefore
  rw [← hRooms, room_eq_getD, room_eq_getD, withCells_cells, withCells_cells,
    hMap.grow_eq hInside hRooms]
  split
  · rfl
  · rw [SoundCells.roomAt_widen, SoundCells.roomAt_take, if_neg (by omega), if_pos (by omega)]
    rfl

/- An edit is known by the cells before the value at the slot grows. -/
theorem replaces (hFits : map.Fits slot tag)
    (hHead : contentAt cells slot = some (.head tag name))
    (hVars : ∀ other old, other ≠ slot →
      ((other, old) ∈ varsOf cells ↔ (other, old) ∈ map.vars ∧ ¬ inWay other old))
    (hKept : ∀ other old, (other, old) ∈ map.vars → ¬ inWay other old →
      contentAt cells other = contentAt map.cells other) :
    Replaces map (map.withCells (grow cells slot tag)) slot tag name inWay where
  content := (hMap.contentAt_grow hInside hRooms (.inl (Nat.le_refl _))).trans hHead
  address := hMap.address_grow hInside hRooms (.inl (Nat.le_refl _))
  vars := by
    intro other old hOther
    rw [← hVars other old hOther]
    constructor
    · intro hVar
      rcases hMap.contentAt_grow_or hInside hRooms other with hSame | hCut
      · exact (mem_varsOf_congr hSame).mp hVar
      · rcases mem_varsOf.mp hVar with ⟨rfl, hUsed⟩
        rw [tagIn, withCells_cells, hCut] at hUsed
        cases hUsed
    · intro hVar
      have hReaches := hFits.reaches ((hVars other old hOther).mp hVar).1
      exact (mem_varsOf_congr (hMap.contentAt_grow hInside hRooms hReaches)).mpr hVar
  kept := by
    intro other old hVar hApart
    have hReaches := hFits.reaches hVar
    exact ⟨(hMap.contentAt_grow hInside hRooms hReaches).trans (hKept other old hVar hApart),
      hMap.address_grow hInside hRooms hReaches⟩

end

end Sound

/- A value stored at a slot and a variable elsewhere take a slot in common. -/
def Overlaps (slot : Nat) (tag : Tag) (other : Nat) (old : Tag) : Prop :=
  slot < other + old.srcWidth ∧ other < slot + tag.srcWidth

section

variable (hPaired : Paired map.cells)
include hPaired

theorem tail_iff_width (slot : Nat) :
    contentAt map.cells (slot + 1) = some .tail ↔ (tagIn map.cells slot).srcWidth = 2 := by
  rw [hPaired.tail_iff, Tag.srcWidth_eq_two]

/- The variables elsewhere are those that were not in the way. -/
theorem mem_varsOf_stored (name : Option String) (hOther : other ≠ slot) :
    (other, old) ∈ varsOf (stored map slot tag name) ↔
      (other, old) ∈ map.vars ∧ ¬ Overlaps slot tag other old := by
  have hHalf : map.isTail (other + 1) = true ↔ (tagIn map.cells other).srcWidth = 2 := by
    rw [isTail, beq_iff_eq, content?_eq, tail_iff_width hPaired]
  have hWidth := tag.srcWidth_eq_two
  have hTwo := tag.srcWidth_le_two
  have hPositive := old.srcWidth_pos
  have hOldTwo := old.srcWidth_le_two
  have hVoid : Tag.void.isVoid = true := rfl
  rw [vars, mem_varsOf, mem_varsOf, tagIn_stored hPaired, if_neg hOther.symm, tagAt_eq]
  unfold Overlaps
  grind

theorem contentAt_stored_of_apart (name : Option String) (hVar : (other, old) ∈ map.vars)
    (hApart : ¬ Overlaps slot tag other old) :
    contentAt (stored map slot tag name) other = contentAt map.cells other := by
  rcases mem_varsOf.mp hVar with ⟨rfl, hUsed⟩
  rcases exists_head hUsed with ⟨oldName, hHead⟩
  have hInside := lt_size_of_contentAt hHead
  have hTail := tail_iff_width hPaired other
  have hWidth := (tagIn map.cells other).srcWidth_pos
  have hPositive := tag.srcWidth_pos
  rw [contentAt_stored hPaired, contentAt_padded]
  unfold Overlaps at hApart
  grind

/- Of a variable in the way, no half is left. -/
theorem contentAt_stored_of_overlap (name : Option String) (hVar : (other, old) ∈ map.vars)
    (hOverlap : Overlaps slot tag other old) {half : Nat} (hFrom : other ≤ half)
    (hTo : half < other + old.srcWidth)
    (hOutside : ¬ (slot ≤ half ∧ half < slot + tag.srcWidth)) :
    contentAt (stored map slot tag name) half = some .void := by
  rcases mem_varsOf.mp hVar with ⟨rfl, _⟩
  have hTail := tail_iff_width hPaired other
  have hTwo := (tagIn map.cells other).srcWidth_le_two
  have hPositive := tag.srcWidth_pos
  rw [contentAt_stored hPaired]
  unfold Overlaps at hOverlap
  grind

end

namespace Sound

variable (hMap : map.Sound)
include hMap

theorem replaces_put (hFits : map.Fits slot tag) (name : Option String) :
    Replaces map (map.withCells (grow (stored map slot tag name) slot tag)) slot tag name
      (Overlaps slot tag) := by
  have hPaired := hMap.cells.paired
  refine hMap.replaces (end_le_size_stored map slot tag name) (room_stored slot tag name)
    hFits ?_ (fun _ _ => mem_varsOf_stored hPaired name)
    (fun _ _ => contentAt_stored_of_apart hPaired name)
  rw [contentAt_stored hPaired, if_pos rfl]

theorem replaces_retag (hFits : map.Fits slot tag)
    (hOld : contentAt map.cells slot = some (.head old name))
    (hWidth : old.srcWidth = tag.srcWidth) :
    Replaces map (map.withCells (grow (setContent map.cells slot (.head tag name)) slot tag)) slot
      tag name (fun other _ => other = slot) := by
  have hSame (other : Nat) (hOther : other ≠ slot) :
      contentAt (setContent map.cells slot (.head tag name)) other = contentAt map.cells other := by
    rw [contentAt_setContent, if_neg hOther.symm]
  refine hMap.replaces ?_ ?_ hFits ?_ (fun other old hOther => ?_)
    (fun other _ _ => hSame other)
  · rw [size_setContent, ← hWidth]
    exact hMap.cells.paired.end_of_head hOld
  · intro other
    rw [room_eq_getD, room_eq_getD, withCells_cells, roomAt_setContent]
    rfl
  · rw [contentAt_setContent, if_pos rfl, hOld]
    rfl
  · rw [mem_varsOf_congr (hSame other hOther)]
    exact (and_iff_left hOther).symm

/- A variable in the way is gone with its other half. -/
theorem isFree_put (name : Option String) (hVar : (other, old) ∈ map.vars)
    (hOverlap : Overlaps slot tag other old) {half : Nat} (hFrom : other ≤ half)
    (hTo : half < other + old.srcWidth)
    (hOutside : ¬ (slot ≤ half ∧ half < slot + tag.srcWidth)) :
    (map.withCells (grow (stored map slot tag name) slot tag)).IsFree half := by
  have hLeft := contentAt_stored_of_overlap hMap.cells.paired name hVar hOverlap hFrom hTo hOutside
  intro content hContent
  rw [content?_eq, withCells_cells] at hContent
  rcases hMap.contentAt_grow_or (end_le_size_stored map slot tag name)
    (room_stored slot tag name) half with hSame | hCut
  · rw [hSame, hLeft] at hContent
    cases hContent
    rfl
  · rw [hCut] at hContent
    cases hContent

theorem exists_retag? :
    (∃ after, map.retag? slot tag = some after) ↔
      ∃ old, (slot, old) ∈ map.vars ∧ old.srcWidth = tag.srcWidth ∧ map.Fits slot tag := by
  constructor
  · rintro ⟨after, hRetag⟩
    rcases retag?_eq_some.mp hRetag with ⟨old, name, hOld, hUsed, hWidth, hFits, _⟩
    exact ⟨old, mem_varsOf.mpr ⟨tagIn_of_content hOld, hUsed⟩, hWidth, hMap.fits_iff.mp hFits⟩
  · rintro ⟨old, hVar, hWidth, hFits⟩
    rcases mem_varsOf.mp hVar with ⟨rfl, hUsed⟩
    rcases exists_head hUsed with ⟨name, hOld⟩
    exact ⟨_, retag?_eq_some.mpr ⟨_, name, hOld, hUsed, hWidth, hMap.fits_iff.mpr hFits, rfl⟩⟩

end Sound

end

namespace Session

/-
  Whatever was done to a map, storing a variable and changing a
  tag fail exactly if the value does not fit, or if there is no
  variable as wide. A failed edit changes nothing, and one that
  succeeds keeps every variable that is not in the way.
-/
theorem edits_keep_others
    (plan : Array Nat)
    (commands : List Command)
    (slot : Nat)
    (tag : Tag)
    (name : Option String) :
    let session := (Session.start plan).run commands
    let map := session.map
    (map.put slot tag name = none ↔ ¬ map.Fits slot tag) ∧
      (map.put slot tag name = none → session.perform (.put slot tag name) = session) ∧
      (∀ address after, map.put slot tag name = some (address, after) →
        address = map.address slot ∧ Replaces map after slot tag name (Overlaps slot tag) ∧
          ∀ other old, (other, old) ∈ map.vars → Overlaps slot tag other old →
            ∀ half, other ≤ half → half < other + old.srcWidth →
              ¬ (slot ≤ half ∧ half < slot + tag.srcWidth) → after.IsFree half) ∧
      (map.retag? slot tag = none ↔
        ¬ ∃ old, (slot, old) ∈ map.vars ∧ old.srcWidth = tag.srcWidth ∧ map.Fits slot tag) ∧
      (map.retag? slot tag = none → session.perform (.retag slot tag) = session) ∧
      (∀ after, map.retag? slot tag = some after →
        Replaces map after slot tag (map.nameAt slot) fun other _ => other = slot) := by
  intro session map
  have hMap : map.Sound := ((Sound.start plan).run commands).map
  refine ⟨?_, ?_, ?_, ?_, ?_, ?_⟩
  · rw [← hMap.fits_iff, put_eq_none]
  · intro hNone
    rw [perform, hNone]
    rfl
  · intro address after hPut
    have hAfter := (hMap.put hPut).1
    rcases put_eq_some.mp hPut with ⟨hFits, rfl, rfl⟩
    have hReplaces := hMap.replaces_put (hMap.fits_iff.mp hFits) name
    have hSize := Nat.le_of_lt (lt_size_of_contentAt hReplaces.content)
    refine ⟨?_, hReplaces, fun _ _ hVar hOverlap _ => hMap.isFree_put name hVar hOverlap⟩
    rw [hAfter.addresses_getElem?, size, if_pos hSize]
    exact hReplaces.address
  · rw [← hMap.exists_retag?, ← Option.ne_none_iff_exists', Ne, Classical.not_not]
  · intro hNone
    rw [perform, hNone]
    rfl
  · intro after hRetag
    rcases retag?_eq_some.mp hRetag with ⟨old, oldName, hOld, _, hWidth, hFits, rfl⟩
    have hName : map.nameAt slot = oldName := by
      rw [nameAt, content?_eq, hOld]
      rfl
    rw [hName]
    exact hMap.replaces_retag (hMap.fits_iff.mp hFits) hOld hWidth

end Session

end SlotMap

end Unboxing
