import Mathlib.Data.List.Induction
import Mathlib.Data.List.Nodup
import Unboxing.Code.SourceFrames

/-
  The frames of a method body in full. The locals of a frame lie
  one after another, however it was made from the one before. A
  label has a frame if one follows it before the next instruction.

  Main declarations:
    * `Layout.Ascending`
    * `Layout.Built`
    * `Layout.Built.eq_ofList`
    * `SourceFrames.ascending_frame?`
    * `SourceFrames.Described`
    * `SourceFrames.frames_expanded`
-/

namespace Unboxing

open List

-- Layouts

namespace Layout

variable {α : Type}
variable [HasWidth α]

/- Every element starts after those before it end. -/
structure Ascending (layout : Layout α) : Prop where
  apart : layout.entries.Pairwise fun first second =>
    first.1 + width first.2 ≤ second.1
  inside : ∀ entry ∈ layout.entries, entry.1 + width entry.2 ≤ layout.cells

omit [HasWidth α] in
theorem mem_of_startingAt? {layout : Layout α} {cell : Nat} {element : α}
    (hStart : layout.startingAt? cell = some element) :
    (cell, element) ∈ layout.entries := by
  rw [startingAt?, Option.map_eq_some_iff] at hStart
  rcases hStart with ⟨⟨found, element⟩, hFind, rfl⟩
  have hCell := find?_some hFind
  rw [beq_iff_eq] at hCell
  rw [← hCell]
  exact mem_of_find?_eq_some hFind

omit [HasWidth α] in
/- An element at the end starts where no other one does. -/
theorem startingAt?_concat (entries : List (Nat × α)) (cells slot cell : Nat)
    (element : α) :
    (Layout.mk (entries ++ [(slot, element)]) cells).startingAt? cell =
      ((Layout.mk entries cells).startingAt? cell).or
        (if slot = cell then some element else none) := by
  unfold startingAt?
  rw [find?_append]
  cases entries.find? (·.1 == cell) with
  | some entry => rfl
  | none =>
    by_cases hSame : slot = cell
    · simp [hSame]
    · simp [hSame]

/- An element that is put at the end starts at the first free cell. -/
theorem startingAt?_push (layout : Layout α) (element : α) (cell : Nat) :
    (layout.push element).startingAt? cell = (layout.startingAt? cell).or
        (if layout.cells = cell then some element else none) :=
  startingAt?_concat layout.entries (layout.cells + width element) layout.cells cell
    element

section

variable (layout : Layout α) (added : List α)

theorem elements_extend : (layout.extend added).elements = layout.elements ++ added := by
  induction added generalizing layout with
  | nil => simp [extend]
  | cons element added ih =>
    rw [extend, foldl_cons, ← extend, ih]
    simp [Layout.elements, push]

theorem elements_ofList : (Layout.ofList added).elements = added :=
  elements_extend .empty added

theorem size_extend : (layout.extend added).size = layout.size + added.length := by
  simpa [Layout.elements, size] using congrArg List.length (elements_extend layout added)

theorem cells_extend : (layout.extend added).cells = layout.cells + total (added.map width) := by
  induction added generalizing layout with
  | nil => rfl
  | cons element added ih =>
    rw [extend, foldl_cons, ← extend, ih, push, map_cons, total_cons, Nat.add_assoc]

end

namespace Ascending

variable {layout : Layout α} {cell : Nat} {element : α} {other : Nat}

theorem empty : Ascending (Layout.empty : Layout α) where
  apart := .nil
  inside := nofun

theorem push (hAscending : layout.Ascending) (element : α) :
    (layout.push element).Ascending where
  apart := by
    refine pairwise_append.mpr
      ⟨hAscending.apart, pairwise_singleton .., ?_⟩
    intro first hFirst second hSecond
    rw [mem_singleton.mp hSecond]
    exact hAscending.inside first hFirst
  inside := by
    refine forall_mem_append.mpr
      ⟨fun entry hEntry => ?_, forall_mem_singleton.mpr (Nat.le_refl _)⟩
    exact Nat.le_trans (hAscending.inside entry hEntry) (Nat.le_add_right _ _)

theorem extend (hAscending : layout.Ascending) (elements : List α) :
    (layout.extend elements).Ascending := by
  induction elements generalizing layout with
  | nil => exact hAscending
  | cons element elements ih => exact ih (hAscending.push element)

theorem ofList (elements : List α) : (Layout.ofList elements).Ascending :=
  empty.extend elements

section

variable (hAscending : layout.Ascending)
include hAscending

theorem truncate (count : Nat) : (layout.truncate count).Ascending := by
  unfold Layout.truncate
  split
  · exact hAscending
  · rename_i cell element hNext
    have hApart := hAscending.apart
    rw [← take_append_drop count layout.entries] at hApart
    rcases pairwise_append.mp hApart with ⟨hKept, _, hCross⟩
    have hMember : (cell, element) ∈ layout.entries.drop count := by
      apply mem_of_getElem? (i := 0)
      rw [getElem?_drop]
      exact hNext
    exact ⟨hKept, fun entry hEntry => hCross entry hEntry _ hMember⟩

theorem order {first second : α} (hFirst : (cell, first) ∈ layout.entries)
    (hSecond : (other, second) ∈ layout.entries) :
    (cell = other ∧ first = second) ∨ cell + width first ≤ other ∨ other + width second ≤ cell := by
  rcases mem_iff_getElem.mp hFirst with ⟨i, hI, hAtI⟩
  rcases mem_iff_getElem.mp hSecond with ⟨j, hJ, hAtJ⟩
  have hApart := pairwise_iff_getElem.mp hAscending.apart
  rcases Nat.lt_trichotomy i j with hBefore | hSame | hAfter
  · have hLe := hApart i j hI hJ hBefore
    rw [hAtI, hAtJ] at hLe
    exact .inr (.inl hLe)
  · subst hSame
    rw [hAtI] at hAtJ
    cases hAtJ
    exact .inl ⟨rfl, rfl⟩
  · have hLe := hApart j i hJ hI hAfter
    rw [hAtI, hAtJ] at hLe
    exact .inr (.inr hLe)

theorem add_width_le (hStart : layout.startingAt? cell = some element) :
    cell + width element ≤ layout.cells :=
  hAscending.inside _ (mem_of_startingAt? hStart)

/- No element starts where another one lies. -/
theorem startingAt?_covered (hStart : layout.startingAt? cell = some element)
    (hAfter : cell < other) (hCovered : other < cell + width element) :
    layout.startingAt? other = none := by
  cases hOther : layout.startingAt? other with
  | none => rfl
  | some second =>
    rcases hAscending.order (mem_of_startingAt? hStart)
      (mem_of_startingAt? hOther) with ⟨hSame, _⟩ | hBefore | hBehind
    · omega
    · omega
    · omega

end

end Ascending

-- Layouts that are built step by step

/-
  A layout that is built step by step, and what the same steps
  make of a list.
-/
inductive Built : Layout α → List α → Prop where
  | empty : Built .empty []
  | push {layout elements} (hBuilt : Built layout elements) (element : α) :
      Built (layout.push element) (elements ++ [element])
  | pop {layout elements} (hBuilt : Built layout elements) :
      Built layout.pop elements.dropLast
  | truncate {layout elements} (hBuilt : Built layout elements) (count : Nat) :
      Built (layout.truncate count) (elements.take count)
  | extend {layout elements} (hBuilt : Built layout elements) (added : List α) :
      Built (layout.extend added) (elements ++ added)

variable {layout : Layout α} {elements : List α}

/- Elements with the cells at which they start, from a cell on. -/
def placed (cell : Nat) : List α → List (Nat × α)
  | [] => []
  | element :: elements => (cell, element) :: placed (cell + width element) elements

theorem getElem?_placed (cell : Nat) (elements : List α) (i : Nat) :
    (placed cell elements)[i]? = elements[i]?.map fun element =>
      (cell + total ((elements.take i).map width), element) := by
  induction elements generalizing cell i with
  | nil => rfl
  | cons element elements ih =>
    cases i with
    | zero => rfl
    | succ i => simp [placed, ih, Nat.add_assoc]

theorem entries_extend (layout : Layout α) (added : List α) :
    (layout.extend added).entries = layout.entries ++ placed layout.cells added := by
  induction added generalizing layout with
  | nil => exact (append_nil _).symm
  | cons element added ih =>
    rw [extend, foldl_cons, ← extend, ih, push, append_assoc]
    rfl

theorem extend_ofList (elements added : List α) :
    (ofList elements).extend added = ofList (elements ++ added) :=
  foldl_append.symm

theorem pop_push (layout : Layout α) (element : α) : (layout.push element).pop = layout := by
  simp [pop, push]

theorem truncate_extend (layout : Layout α) (added : List α) :
    (layout.extend added).truncate layout.size = layout := by
  cases added with
  | nil => simp [extend, truncate, size]
  | cons element added => simp [truncate, entries_extend, placed, size]

theorem size_ofList (elements : List α) : (ofList elements).size = elements.length :=
  (size_extend empty elements).trans (Nat.zero_add _)

/- Each element starts where those before it end. -/
theorem entries_ofList (elements : List α) (i : Nat) :
    (ofList elements).entries[i]? = elements[i]?.map fun element =>
      (total ((elements.take i).map width), element) := by
  rw [ofList, entries_extend]
  simpa [empty] using getElem?_placed 0 elements i

/- What is built in any way is what its elements make in one go. -/
theorem Built.eq_ofList (hBuilt : Built layout elements) : layout = ofList elements := by
  induction hBuilt with
  | empty => rfl
  | push _ element ih => rw [ih, ← extend_ofList, Layout.extend, foldl_cons, foldl_nil]
  | @pop _ elements _ ih =>
    rw [ih]
    rcases eq_nil_or_concat elements with rfl | ⟨before, element, rfl⟩
    · rfl
    · rw [concat_eq_append, ← extend_ofList, dropLast_concat]
      exact pop_push ..
  | @truncate _ elements _ count ih =>
    rw [ih]
    rcases Nat.le_total count elements.length with hInside | hBeyond
    · have hKeeps := truncate_extend (ofList (elements.take count)) (elements.drop count)
      rwa [extend_ofList, take_append_drop, size_ofList, length_take_of_le hInside]
        at hKeeps
    · rw [take_of_length_le hBeyond, Layout.truncate, entries_ofList,
        getElem?_eq_none hBeyond, Option.map_none]
  | extend _ added ih => rw [ih, extend_ofList]

/- Wide elements are found at the cell at which they start, and nowhere else. -/
theorem startingAt?_ofList (hWidths : ∀ element ∈ elements, 1 ≤ width element) (cell : Nat)
    (element : α) :
    (ofList elements).startingAt? cell = some element ↔
      ∃ i, elements[i]? = some element ∧ cell = total ((elements.take i).map width) := by
  have hEntry : (cell, element) ∈ (ofList elements).entries ↔
      ∃ i, elements[i]? = some element ∧ cell = total ((elements.take i).map width) := by
    simp only [mem_iff_getElem?, entries_ofList, Option.map_eq_some_iff, Prod.mk.injEq]
    grind
  rw [← hEntry]
  refine ⟨mem_of_startingAt?, fun hMember => ?_⟩
  cases hFound : (ofList elements).startingAt? cell with
  | none =>
    rw [startingAt?, Option.map_eq_none_iff] at hFound
    exact absurd (beq_self_eq_true cell) (find?_eq_none.mp hFound _ hMember)
  | some other =>
    have hOther := mem_of_startingAt? hFound
    have hWide {found : α} (hFound : (cell, found) ∈ (ofList elements).entries) :
        1 ≤ width found := by
      apply hWidths
      rw [← elements_ofList elements]
      exact mem_map_of_mem hFound
    rcases (Ascending.ofList elements).order hMember hOther with ⟨_, rfl⟩ | hBefore | hAfter
    · rfl
    · have := hWide hMember
      omega
    · have := hWide hOther
      omega

end Layout

-- Frames

theorem FrameType.width_pos (type : FrameType) : 0 < width type := by
  cases type <;> exact Nat.succ_pos _

theorem Frame.ascending_advance {frame : Frame} (hAscending : frame.locals.Ascending)
    (change : FrameChange) :
    (frame.advance change).locals.Ascending := by
  cases change with
  | same | sameOne entry => exact hAscending
  | chop count => exact hAscending.truncate _
  | append locals => exact hAscending.extend locals
  | full locals stack => exact .ofList locals

/- The frame after an element, if the last one before it is given. -/
def Frame.past (frame : Frame) : Node → Frame
  | .frame change => frame.advance change
  | _ => frame

theorem Frame.ascending_foldl {frame : Frame} (hAscending : frame.locals.Ascending)
    (nodes : List Node) : (nodes.foldl past frame).locals.Ascending := by
  induction nodes generalizing frame with
  | nil => exact hAscending
  | cons node nodes ih =>
    refine ih ?_
    cases node with
    | frame change => exact ascending_advance hAscending change
    | _ => exact hAscending

-- Frames of labels

/- Labels and line numbers, which may stand between a label and its frame. -/
def Node.isPosition : Node → Bool
  | .label _ | .line _ => true
  | .insn _ | .branch _ | .frame _ => false

namespace SourceFrames

variable {nodes : List Node} {node : Node} {initial last frame other : Frame} {l : Label}

/- A frame that follows with nothing but labels and line numbers before it. -/
def Follows (nodes : List Node) (last frame : Frame) : Prop :=
  ∃ between change after, nodes = between ++ .frame change :: after ∧
    (∀ node ∈ between, node.isPosition = true) ∧ frame = last.advance change

/- A label that a frame follows, which is made from the first by all changes up to it. -/
def Described (nodes : List Node) (initial : Frame) (l : Label) (frame : Frame) : Prop :=
  ∃ before after, nodes = before ++ .label l :: after ∧
    Follows after (before.foldl Frame.past initial) frame

theorem follows_cons :
    Follows (node :: nodes) last frame ↔
      (∃ change, node = .frame change ∧ frame = last.advance change) ∨
        node.isPosition = true ∧ Follows nodes last frame := by
  constructor
  · rintro ⟨between, change, after, hSplit, hPositions, rfl⟩
    cases between with
    | nil =>
      cases hSplit
      exact .inl ⟨change, rfl, rfl⟩
    | cons first between =>
      cases hSplit
      rw [forall_mem_cons] at hPositions
      exact .inr ⟨hPositions.1, between, change, after, rfl, hPositions.2, rfl⟩
  · rintro (⟨change, rfl, rfl⟩ | ⟨hPosition, between, change, after, rfl, hPositions, rfl⟩)
    · exact ⟨[], change, nodes, rfl, nofun, rfl⟩
    · exact ⟨node :: between, change, after, rfl,
        forall_mem_cons.mpr ⟨hPosition, hPositions⟩, rfl⟩

theorem described_cons :
    Described (node :: nodes) initial l frame ↔
      node = .label l ∧ Follows nodes initial frame ∨
        Described nodes (initial.past node) l frame := by
  constructor
  · rintro ⟨before, after, hSplit, hFollows⟩
    cases before with
    | nil =>
      cases hSplit
      exact .inl ⟨rfl, hFollows⟩
    | cons first before =>
      cases hSplit
      exact .inr ⟨before, after, rfl, hFollows⟩
  · rintro (⟨rfl, hFollows⟩ | ⟨before, after, rfl, hFollows⟩)
    · exact ⟨[], nodes, rfl, hFollows⟩
    · exact ⟨node :: before, after, rfl, hFollows⟩

/- What is found from a state on: for labels that wait for a frame, and for later ones. -/
theorem mem_expanded (nodes : List Node) (expansion : Expansion) :
    (l, frame) ∈ (nodes.foldl Expansion.step expansion).found.atLabel ↔
      (l, frame) ∈ expansion.found.atLabel ∨
        (l ∈ expansion.labels ∧ Follows nodes expansion.frame frame) ∨
          Described nodes expansion.frame l frame := by
  induction nodes generalizing expansion with
  | nil => simp [Follows, Described]
  | cons node nodes ih =>
    rw [foldl_cons, ih, follows_cons, described_cons]
    cases node <;> grind [Expansion.step, Node.isPosition, Frame.past]

theorem mem_scan :
    (l, frame) ∈ (scan nodes initial).atLabel ↔ Described nodes initial l frame := by
  simp [scan, mem_expanded, empty]

theorem mem_of_frame? {frames : SourceFrames} (hFrame : frames.frame? l = some frame) :
    (l, frame) ∈ frames.atLabel := by
  rw [frame?, lookup_eq_some_iff] at hFrame
  rcases hFrame with ⟨before, after, hSplit, _⟩
  rw [hSplit]
  exact mem_append_right _ (mem_cons_self ..)

/- The frames of a body are laid out in order if the first is. -/
theorem ascending_frame? (hInitial : initial.locals.Ascending)
    (hFrame : (scan nodes initial).frame? l = some frame) : frame.locals.Ascending := by
  obtain ⟨before, _, _, _, change, _, _, _, rfl⟩ := mem_scan.mp (mem_of_frame? hFrame)
  exact Frame.ascending_advance (Frame.ascending_foldl hInitial before) change

theorem Follows.unique (hFirst : Follows nodes last frame) (hSecond : Follows nodes last other) :
    frame = other := by
  induction nodes with
  | nil => simp [Follows] at hFirst
  | cons node nodes ih =>
    rw [follows_cons] at hFirst hSecond
    grind [Node.isPosition]

/- A label that is placed once is described by one frame. -/
theorem Described.unique (hOnce : nodes.count (.label l) ≤ 1)
    (hFirst : Described nodes initial l frame) (hSecond : Described nodes initial l other) :
    frame = other := by
  obtain ⟨before, after, rfl, hFollows⟩ := hFirst
  obtain ⟨start, rest, hSame, hOther⟩ := hSecond
  rw [count_append, count_cons_self] at hOnce
  obtain ⟨rfl, -, rfl⟩ := (append_cons_inj_of_notMem (count_eq_zero.mp (by omega))
    (count_eq_zero.mp (by omega))).mp hSame
  exact hFollows.unique hOther

/-
  A label that is placed at most once has a frame exactly if one describes it;
  taking away as many locals as were added restores them; and elements of at
  least one cell are found where those before them end, and only there.
-/
theorem frames_expanded {α : Type} [HasWidth α] :
    (∀ nodes initial l frame, (∀ placed, nodes.count (.label placed) ≤ 1) →
      ((scan nodes initial).frame? l = some frame ↔ Described nodes initial l frame)) ∧
    (∀ (frame : Frame) (added : List FrameType),
      ((frame.advance (.append added)).advance (.chop added.length)).locals = frame.locals) ∧
    ∀ (layout : Layout α) (elements : List α), layout.Built elements →
      (∀ i, layout.entries[i]? = elements[i]?.map fun element =>
        (total ((elements.take i).map width), element)) ∧
      layout.cells = total (elements.map width) ∧
      ((∀ element ∈ elements, 1 ≤ width element) → ∀ cell element,
        layout.startingAt? cell = some element ↔
          ∃ i, elements[i]? = some element ∧ cell = total ((elements.take i).map width)) := by
  refine ⟨fun nodes initial l frame hOnce => ?_, fun frame added => ?_,
    fun layout elements hBuilt => ?_⟩
  · refine ⟨fun hFrame => mem_scan.mp (mem_of_frame? hFrame), fun hDescribed => ?_⟩
    cases hFrame : (scan nodes initial).frame? l with
    | none =>
      have hAbsent := lookup_eq_none_iff.mp hFrame _ (mem_scan.mpr hDescribed)
      exact absurd hAbsent (by simp)
    | some other =>
      rw [hDescribed.unique (hOnce l) (mem_scan.mp (mem_of_frame? hFrame))]
  · change (Layout.extend _ _).truncate ((Layout.extend _ _).size - added.length) = _
    rw [Layout.size_extend, Nat.add_sub_cancel, Layout.truncate_extend]
  · rw [hBuilt.eq_ofList]
    refine ⟨Layout.entries_ofList elements, ?_, Layout.startingAt?_ofList⟩
    exact (Layout.cells_extend .empty elements).trans (Nat.zero_add _)

/- Two labels of three share a frame, and a layout whose last element was replaced by another. -/
theorem frames_expanded_shared :
    let nodes : List Node := [.label ⟨1⟩, .line 7, .label ⟨2⟩, .frame (.append [.long]),
      .label ⟨3⟩, .insn .pushNull, .frame (.chop 1)]
    let initial : Frame := ⟨.ofList [.int], []⟩
    let layout := ((Layout.empty.extend [FrameType.int, .long]).truncate 1).push .double
    (∀ placed, nodes.count (.label placed) ≤ 1) ∧
      Described nodes initial ⟨1⟩ ⟨.ofList [.int, .long], []⟩ ∧
      (∀ frame, ¬ Described nodes initial ⟨3⟩ frame) ∧
      layout.Built [.int, .double] ∧ layout.startingAt? 1 = some .double := by
  intro nodes initial layout
  have hDistinct : nodes.Nodup := by decide
  have hOnce (l : Label) := nodup_iff_count_le_one.mp hDistinct (.label l)
  have hBuilt : layout.Built [.int, .double] :=
    .push (.truncate (.extend .empty [.int, .long]) 1) FrameType.double
  obtain ⟨hScan, _, hLayout⟩ := frames_expanded (α := FrameType)
  refine ⟨hOnce, (hScan _ _ _ _ hOnce).mp (by decide), fun frame hDescribed => ?_, hBuilt,
    ((hLayout _ _ hBuilt).2.2 (by decide) 1 .double).mpr ⟨1, rfl, rfl⟩⟩
  cases (hScan _ _ _ _ hOnce).mpr hDescribed

end SourceFrames

end Unboxing
