import Unboxing.Proofs.Representation
import Unboxing.Proofs.StackDepths

/-
  Regular states: the stack is counted, the locals follow the
  plan, the peaks cover what is there, and all tags are definite.
  A value whose class is still open can be a payload, but no box.
  What is done to a stack or to locals leaves them regular and
  never lowers a peak.

  Main declarations:
    * `Tag.Definite`
    * `Tag.Agreeable`
    * `OperandStack.Regular`
    * `SlotMap.Regular`
    * `SlotMap.Follows`
    * `Simulation.State.Regular`
-/

namespace Unboxing

namespace Tag

variable {tag found want : Tag}

-- Definite tags

/- A reference to a box is to one of a known class. -/
def Definite (tag : Tag) : Prop :=
  tag.kind ≠ .reference .wildcard

instance (tag : Tag) : Decidable tag.Definite :=
  inferInstanceAs (Decidable (tag.kind ≠ .reference .wildcard))

theorem definite_void : void.Definite := by
  decide

theorem Concrete.definite (hTag : tag.Concrete) : tag.Definite := by
  intro hKind
  apply hTag
  rw [class?, hKind]

theorem definite_of_hasPayloadKind (hPayload : tag.hasPayloadKind = true) :
    tag.Definite := by
  intro hKind
  rw [hasPayloadKind, hKind] at hPayload
  cases hPayload

theorem definite_payloadOf (tag : Tag) : tag.payloadOf.Definite := by
  rcases tag with ⟨kind, depth⟩
  cases kind <;> exact nofun

theorem Definite.arrayOf (hTag : tag.Definite) (extra : Nat) :
    (tag.arrayOf extra).Definite :=
  hTag

theorem Definite.elementOf (hTag : tag.Definite) : tag.elementOf.Definite := by
  unfold Tag.elementOf
  split
  · exact hTag
  · decide

theorem Definite.merge {current declared : Tag} (hCurrent : current.Definite)
    (hDeclared : declared.Definite) (payloadFits : Bool) :
    (current.merge declared payloadFits).Definite := by
  rcases current.merge_cases declared payloadFits with hTag | hTag | ⟨hTag, _⟩ | hTag
  all_goals rw [hTag]
  · exact definite_void
  · exact hDeclared
  · exact declared.definite_payloadOf
  · exact hCurrent

theorem Definite.substitute (hTag : tag.Definite) (cls : ClassIndex) :
    (tag.substitute cls).Definite := by
  unfold Tag.substitute
  split
  · exact nofun
  · rename_i hKind
    exact absurd hKind hTag
  · exact hTag

-- Widths

@[simp] theorem dstWidth_substitute (tag : Tag) (cls : ClassIndex) :
    (tag.substitute cls).dstWidth = tag.dstWidth := by
  unfold Tag.substitute
  split
  · rename_i hKind
    simp [dstWidth, isDstWide, isArray, hKind]
  · rename_i hKind
    simp [dstWidth, isDstWide, isArray, hKind]
  · rfl

/- Only references become something else. -/
theorem references_of_cast (hCast : found.cast want ≠ .failure)
    (hOther : found ≠ want) :
    found.isSrcReference = true ∧ want.isSrcReference = true := by
  generalize hTurned : found.cast want = turned at hCast
  cases turns_of_cast hTurned with
  | same hSame => exact absurd hSame hOther
  | failure => exact absurd rfl hCast
  | other _ _ hReferences => exact hReferences
  | _ => grind [isSrcReference, isValue, isWildcard, class?, hasPayloadKind, hasReferenceKind,
      isPayload]

/- What is taken as something else without code stays a payload, or stays none. -/
theorem isPayload_of_success (hCast : found.cast want = .success) :
    found.isPayload = want.isPayload := by
  cases turns_of_cast hCast with
  | same hSame => rw [hSame]
  | asObject _ hFound hWant =>
    have hKind : want.hasPayloadKind = false := by simp [hasPayloadKind, hWant]
    simp [isPayload, hFound, hKind]
  | null hFound _ hWant =>
    rw [hWant]
    simp [isPayload, hasPayloadKind, hFound]
  | object hFound _ hWant =>
    have hKind : found.hasPayloadKind = false := by simp [hasPayloadKind, hFound]
    simp [isPayload, hKind, hWant]
  | other hFound hWant =>
    rw [not_isPayload_of_not_isValue hFound, not_isPayload_of_not_isValue hWant]

theorem dstWidth_of_success (hCast : found.cast want = .success) :
    found.dstWidth = want.dstWidth := by
  by_cases hSame : found = want
  · rw [hSame]
  · rcases references_of_cast (by simp [hCast]) hSame with ⟨hFound, hWant⟩
    rw [dstWidth_of_reference hFound, dstWidth_of_reference hWant, isPayload_of_success hCast]

/- Values of an open class take what they are, or are arrays. -/
theorem dstWidth_of_substitution (hWant : want.Definite)
    (hCast : found.cast want = .substitution) :
    found.dstWidth ≤ want.dstWidth := by
  rcases turns_of_cast hCast with _ | _ | ⟨_, hDepth, _, hOpen⟩
  by_cases hArray : 0 < want.depth
  · have hOne : found.dstWidth = 1 := by
      simp [dstWidth, isDstWide, isArray, hDepth, hArray]
    rw [hOne]
    exact want.dstWidth_pos
  · have hTwo : want.dstWidth = 2 := by
      rcases want with ⟨kind, depth⟩
      cases kind with
      | payload cls => simp [dstWidth, isDstWide, isArray, hArray]
      | reference cls =>
        simp only [isWildcard, class?, beq_iff_eq, Option.some.injEq] at hOpen
        subst hOpen
        exact absurd rfl hWant
      | _ => cases hOpen
    rw [hTwo]
    exact found.dstWidth_le_two

/- Without code, no value gets narrower. -/
theorem dstWidth_le_of_free (hWant : want.Definite)
    (hCast : found.cast want ≠ .failure) (hFree : found.needsCode want = false) :
    found.dstWidth ≤ want.dstWidth := by
  cases hFound : found.cast want with
  | success => exact Nat.le_of_eq (dstWidth_of_success hFound)
  | substitution => exact dstWidth_of_substitution hWant hFound
  | boxing | unboxing => simp [needsCode, hFound] at hFree
  | failure => exact absurd hFound hCast

-- What can be agreed on

/-
  A value can become what is expected, unless that is a box of an
  open class; to make such a box takes code, which then fails.
-/
def Agreeable (found want : Tag) : Prop :=
  want.Definite ∨ found.needsCode want = true

theorem needsCode_referenceOf (hPayload : tag.hasPayloadKind = true) :
    tag.needsCode tag.referenceOf = true := by
  rcases tag with ⟨kind, depth⟩
  cases kind <;>
    simp_all [hasPayloadKind, hasReferenceKind, needsCode, cast, castValues,
      referenceOf, isVoid, isValue, class?]

theorem Definite.agreeable_referenceOf (hTag : tag.Definite) :
    tag.Agreeable tag.referenceOf := by
  cases hPayload : tag.hasPayloadKind with
  | true => exact .inr (needsCode_referenceOf hPayload)
  | false =>
    left
    rcases tag with ⟨kind, depth⟩
    cases kind <;> first | exact hTag | cases hPayload

end Tag

/- A conversion makes a value as wide as what is expected. -/
theorem dstWidth_converted (found want : Tag) :
    (converted found want).dstWidth = want.dstWidth := by
  unfold converted
  split
  · unfold Simulation.substituted
    split
    · exact want.dstWidth_substitute _
    · rfl
  · rfl

theorem definite_converted {want : Tag} (found : Tag)
    (hWant : want.Definite) :
    (converted found want).Definite := by
  unfold converted
  split
  · unfold Simulation.substituted
    split
    · exact hWant.substitute _
    · exact hWant
  · exact hWant

namespace Simulation

variable {found : Tag}

theorem agreeable_boxedFor {consumer : Tag} (hFound : found.Definite)
    (hConsumer : consumer.Definite) :
    found.Agreeable (boxedFor found consumer) := by
  unfold boxedFor
  split
  · exact .inl hFound
  split
  · exact .inl hConsumer
  · exact hFound.agreeable_referenceOf

theorem agreeable_storedAs (hFound : found.Definite) (room : Nat) :
    found.Agreeable (storedAs found room) := by
  unfold storedAs
  split
  · exact .inl found.definite_payloadOf
  split
  · exact hFound.agreeable_referenceOf
  · exact .inl hFound

end Simulation

theorem Tag.lasting_definite : Lasting Definite where
  void := definite_void
  merge _ _ fits hCurrent hDeclared := hCurrent.merge hDeclared fits
  declared reg type := (reg.concrete_tagOfFrame type).definite

-- Stacks

namespace OperandStack

/- A counted stack with definite tags only. -/
structure Regular (stack : OperandStack) : Prop where
  counted : stack.Counted
  definite : ∀ entry ∈ stack.entries, entry.tag.Definite

theorem Regular.tagAt {stack : OperandStack} (hStack : stack.Regular) (depth : Nat) :
    (stack.tagAt depth).Definite :=
  All.tagAt hStack.definite Tag.definite_void depth

theorem Regular.orderly {stack : OperandStack} (hStack : stack.Regular) :
    stack.Orderly True Tag.Definite :=
  ⟨fun _ => hStack.counted, hStack.definite⟩

theorem Upholds.regular {before after : OperandStack}
    (hUpholds : Upholds True Tag.Definite before after) (hBefore : before.Regular) :
    after.Regular :=
  have hAfter := hUpholds.orderly hBefore.orderly
  ⟨hAfter.counted trivial, hAfter.tags⟩

end OperandStack

/- A counted snapshot with definite tags only. -/
structure StackSnapshot.Regular (snapshot : StackSnapshot) : Prop where
  counted : snapshot.Counted
  definite : ∀ entry ∈ snapshot.entries, entry.tag.Definite

theorem OperandStack.Regular.save {stack : OperandStack} (hStack : stack.Regular) :
    stack.save.Regular :=
  ⟨hStack.counted.save, hStack.definite⟩

namespace StackSnapshot

variable {snapshot : StackSnapshot}

theorem Regular.orderly (hSnapshot : snapshot.Regular) :
    snapshot.Orderly True Tag.Definite :=
  ⟨fun _ => hSnapshot.counted, hSnapshot.definite⟩

theorem Orderly.regular (hSnapshot : snapshot.Orderly True Tag.Definite) :
    snapshot.Regular :=
  ⟨hSnapshot.counted trivial, hSnapshot.tags⟩

theorem Regular.withoutTop (hSnapshot : snapshot.Regular) (count : Nat) :
    (snapshot.withoutTop count).Regular :=
  (hSnapshot.orderly.withoutTop count).regular

theorem Regular.narrow (hSnapshot : snapshot.Regular) (reg : Registry)
    (frame : Frame) :
    (snapshot.narrow reg frame).Regular :=
  (hSnapshot.orderly.narrow Tag.lasting_definite reg frame).regular

theorem Regular.tags (hSnapshot : snapshot.Regular) {tag : Tag}
    (hTag : tag ∈ snapshot.tags) :
    tag.Definite :=
  hSnapshot.orderly.mem_tags hTag

end StackSnapshot

-- Locals

/- All variables of some cells have definite tags. -/
def DefiniteCells (cells : Array SlotCell) : Prop :=
  ∀ slot, (SlotMap.tagIn cells slot).Definite

theorem definiteCells_iff (cells : Array SlotCell) :
    DefiniteCells cells ↔ AllCells Tag.Definite cells := by
  constructor
  · intro hCells cell hCell
    rcases Array.mem_iff_getElem?.mp hCell with ⟨slot, hSlot⟩
    have hTag := hCells slot
    rw [SlotMap.tagIn, SlotMap.contentAt, hSlot] at hTag
    exact hTag
  · exact fun hCells slot => hCells.tagIn Tag.definite_void slot

namespace SlotMap

/-
  A map that follows its plan, with a peak that covers its cells
  and with definite tags only.
-/
structure Regular (plan : Array Nat) (map : SlotMap) : Prop where
  placed : Placed plan map
  peak : map.dstSize ≤ map.peak
  definite : DefiniteCells map.cells

/- One map comes from another: regular, with no smaller peak. -/
structure Follows (plan : Array Nat) (before after : SlotMap) : Prop where
  regular : Regular plan after
  peak : before.peak ≤ after.peak

variable {plan : Array Nat} {map : SlotMap}

theorem Follows.trans {first second third : SlotMap} (hFirst : Follows plan first second)
    (hSecond : Follows plan second third) :
    Follows plan first third :=
  ⟨hSecond.regular, Nat.le_trans hFirst.peak hSecond.peak⟩

namespace Regular

variable {slot : Nat} {tag : Tag} {after : SlotMap}

section

variable (hMap : Regular plan map)
include hMap

theorem follows : Follows plan map map :=
  ⟨hMap, Nat.le_refl _⟩

/- The cells end where the first slot without one would start. -/
theorem dstSize_eq : map.dstSize = planned plan map.cells.size := by
  unfold dstSize
  rw [hMap.placed.addresses_getElem? (Nat.le_refl _), Option.getD_some]

/- The peak covers every variable. -/
theorem end_le_peak (hUsed : (map.tagAt slot).isVoid = false) :
    planned plan slot + (map.tagAt slot).dstWidth ≤ map.peak :=
  Nat.le_trans (hMap.placed.address_le_dstSize hUsed) hMap.peak

theorem all : map.All Tag.Definite :=
  (definiteCells_iff map.cells).mp hMap.definite

theorem withCells {cells : Array SlotCell} (hCells : PlacedCells plan cells)
    (hDefinite : DefiniteCells cells) :
    Follows plan map (map.withCells cells) where
  regular := ⟨hMap.placed.withCells hCells, Nat.le_max_right _ _, hDefinite⟩
  peak := Nat.le_max_left _ _

theorem restore {snapshot : SlotSnapshot} (hCells : PlacedCells plan snapshot.cells)
    (hDefinite : DefiniteCells snapshot.cells) :
    Follows plan map (map.restore snapshot) :=
  hMap.withCells hCells hDefinite

theorem clear : Follows plan map map.clear :=
  hMap.withCells .empty ((definiteCells_iff _).mpr (All.clear map))

theorem stored (name : Option String) (hTag : tag.Definite)
    (hRoom : tag.HasRoom plan slot) :
    Follows plan map (map.withCells (Placed.stored map slot tag name)) :=
  hMap.withCells (hMap.placed.stored_placed hRoom) ((definiteCells_iff _).mpr
    (hMap.all.put Tag.definite_void hTag (hMap.placed.put_eq name hRoom)))

/- A value that is stored is covered from then on. -/
theorem put {address : Nat} {name : Option String} (hTag : tag.Definite)
    (hRoom : tag.HasRoom plan slot)
    (hPut : map.put slot tag name = some (address, after)) :
    Follows plan map after ∧ address = planned plan slot ∧
      planned plan slot + tag.dstWidth ≤ after.peak := by
  rw [hMap.placed.put_eq name hRoom] at hPut
  cases hPut
  have hAfter := hMap.stored name hTag hRoom
  refine ⟨hAfter, rfl, ?_⟩
  have hEnd : slot + tag.srcWidth ≤
      (map.withCells (Placed.stored map slot tag name)).cells.size := by
    have hSize := size_stored map slot tag name
    change slot + tag.srcWidth ≤ (Placed.stored map slot tag name).size
    omega
  calc
    planned plan slot + tag.dstWidth
      ≤ planned plan (slot + tag.srcWidth) := planned_add_dstWidth hRoom
    _ ≤ planned plan _ := planned_mono plan hEnd
    _ ≤ (map.withCells (Placed.stored map slot tag name)).peak := by
        rw [← hAfter.regular.dstSize_eq]
        exact hAfter.regular.peak

/- A change that keeps the number of cells and the peak. -/
theorem sameSize (hPlaced : Placed plan after) (hAll : after.All Tag.Definite)
    (hSize : after.cells.size = map.cells.size) (hPeak : after.peak = map.peak) :
    Follows plan map after := by
  refine ⟨⟨hPlaced, ?_, (definiteCells_iff _).mpr hAll⟩, Nat.le_of_eq hPeak.symm⟩
  have hCovered := hMap.peak
  rw [hMap.dstSize_eq] at hCovered
  rw [dstSize, hPlaced.addresses_getElem? (Nat.le_refl _), Option.getD_some, hSize, hPeak]
  exact hCovered

theorem kill (slot : Nat) : Follows plan map (map.kill slot) :=
  hMap.sameSize (hMap.placed.kill slot) (hMap.all.kill Tag.definite_void slot)
    (size_detach ..) rfl

theorem forgetName (name : String) : Follows plan map (map.forgetName name) :=
  hMap.sameSize (hMap.placed.forgetName name) (hMap.all.forgetName name)
    (Array.size_map ..) rfl

theorem retag? (hTag : tag.Definite) (hUsed : (map.tagAt slot).isVoid = false)
    (hWidth : (map.tagAt slot).srcWidth = tag.srcWidth)
    (hRoom : tag.HasRoom plan slot)
    (hRetag : map.retag? slot tag = some after) :
    Follows plan map after := by
  have hAll := hMap.all.retag? hTag hRetag
  rcases hMap.placed.retag?_eq hUsed hWidth hRoom with ⟨same, hSame, hPlaced, -⟩
  rw [hRetag] at hSame
  cases hSame
  rcases retag?_eq_some.mp hRetag with ⟨_, _, _, _, _, _, rfl⟩
  exact hMap.withCells hPlaced.cells ((definiteCells_iff _).mpr hAll)

-- Declared locals

theorem narrowAt {declared : Tag} (hDeclared : declared.Definite)
    (hNoPayload : ¬ declared.isPayload = true) :
    Follows plan map (map.narrowAt slot declared) := by
  unfold SlotMap.narrowAt
  split
  · exact hMap.follows
  · simp only []
    split
    · exact hMap.follows
    · rename_i hChanged
      split
      · exact hMap.kill slot
      · have hRoom := hMap.placed.merge_room hNoPayload hChanged
        rw [hMap.placed.put_eq _ hRoom]
        exact hMap.stored _ (Tag.Definite.merge (hMap.definite slot) hDeclared _) hRoom

theorem narrow (reg : Registry) (frame : Frame) :
    Follows plan map (map.narrow reg frame) :=
  @narrow_induct reg frame map (Follows plan map)
    (fun tag => tag.Definite ∧ ¬ tag.isPayload = true)
    ⟨Tag.definite_void, nofun⟩
    (fun type => ⟨(reg.concrete_tagOfFrame type).definite,
      Tag.not_payload_of_kind (reg.tagOfFrame_not_payload type)⟩)
    (fun _ _ _ hTag hFirst => hFirst.trans (hFirst.regular.narrowAt hTag.1 hTag.2))
    hMap.follows

theorem declaredLocals (reg : Registry) (frame : Frame) :
    Follows plan map (Simulation.declaredLocals reg frame map) :=
  declaredLocals_induct
    (fun _ _ type _ _ hFirst hPut => hFirst.trans
      (hFirst.regular.put (reg.concrete_tagOfFrame type).definite (fun hPayload =>
        absurd hPayload (Tag.not_payload_of_kind (reg.tagOfFrame_not_payload type)))
        hPut).1)
    hMap.clear

-- Receiver and parameters

theorem add (name : Option String) (hTag : tag.Definite)
    (hNoPayload : ¬ tag.isPayload = true) :
    Follows plan map (map.add tag name).2 := by
  have hAll := hMap.all.add Tag.definite_void name hTag
  have hPlaced := hMap.placed.add name hNoPayload
  have hCells : ∃ cells, (map.add tag name).2 = map.withCells cells := by
    unfold SlotMap.add
    simp only
    split
    · exact ⟨_, rfl⟩
    · exact ⟨_, rfl⟩
  rcases hCells with ⟨cells, hAdd⟩
  rw [hAdd] at hAll hPlaced ⊢
  exact hMap.withCells hPlaced.cells ((definiteCells_iff _).mpr hAll)

theorem addAll (entries : List (Tag × Option String))
    (hEntries : ∀ entry ∈ entries, entry.1.Definite ∧ ¬ entry.1.hasPayloadKind = true) :
    Follows plan map
      (entries.foldl (fun map (tag, name) => (map.add tag name).2) map) := by
  induction entries generalizing map with
  | nil => exact hMap.follows
  | cons entry entries ih =>
    rcases List.forall_mem_cons.mp hEntries with ⟨⟨hTag, hKind⟩, hOthers⟩
    have hFirst := hMap.add entry.2 hTag (Tag.not_payload_of_kind hKind)
    exact hFirst.trans (ih hFirst.regular hOthers)

end

theorem withPlan (plan : Array Nat) : Regular plan (SlotMap.withPlan plan) where
  placed := ⟨rfl, .empty, rfl⟩
  peak := Nat.le_refl 0
  definite := (definiteCells_iff _).mpr fun _ hCell => by cases Array.mem_def.mp hCell

end Regular

end SlotMap

namespace Method

variable (method : Method) (reg : Registry) (owner : ClassName)

theorem definite_initialVariables :
    ∀ entry ∈ method.initialVariables reg owner,
      entry.1.Definite ∧ ¬ entry.1.hasPayloadKind = true :=
  @initialVariables_all reg owner
    (fun tag => tag.Definite ∧ ¬ tag.hasPayloadKind = true) method
    ⟨(reg.concrete_tagOfClass owner).definite, reg.tagOfClass_not_payload owner⟩
    fun type => ⟨(reg.concrete_tagOf type).definite, reg.tagOf_not_payload type⟩

theorem regular_initialLocals (body : Body) :
    SlotMap.Regular (slotPlan body (method.type.parameterCells !method.isStatic))
      (method.initialLocals reg owner body) :=
  ((SlotMap.Regular.withPlan _).addAll _
    (method.definite_initialVariables reg owner)).regular

theorem peak_initialLocals (body : Body) (hSome : method.initialVariables reg owner ≠ []) :
    1 ≤ (method.initialLocals reg owner body).peak := by
  have hVariables := method.definite_initialVariables reg owner
  unfold initialLocals
  generalize slotPlan body _ = plan
  rcases List.exists_cons_of_ne_nil hSome with ⟨⟨tag, name⟩, others, hCons⟩
  simp only [hCons, List.forall_mem_cons] at hVariables
  rcases hVariables with ⟨⟨hTag, hKind⟩, hOthers⟩
  simp only [hCons, List.foldl_cons]
  have hFirst := (SlotMap.Regular.withPlan plan).add name hTag
    (Tag.not_payload_of_kind hKind)
  have hRest := hFirst.regular.addAll _ hOthers
  refine Nat.le_trans ?_ hRest.peak
  -- The variable is in the first slot, whose room is at least one.
  have hSize : 0 < ((SlotMap.withPlan plan).add tag name).2.cells.size := by
    unfold SlotMap.add
    simp only
    split <;> simp [SlotMap.withCells]
  have hAddress := planned_mono plan hSize
  rw [planned_succ, planned_zero] at hAddress
  have hRoom := plannedRoom_pos plan 0
  have hPeak := hFirst.regular.peak
  rw [hFirst.regular.dstSize_eq] at hPeak
  omega

end Method

-- States

/- What is agreed at a label is regular. -/
structure Join.Regular (plan : Array Nat) (join : Join) : Prop where
  stack : join.stack.Regular
  cells : PlacedCells plan join.locals.cells
  definite : DefiniteCells join.locals.cells

namespace Simulation

/- Stack, locals and what is agreed at labels are regular. -/
structure State.Regular (plan : Array Nat) (st : State) : Prop where
  stack : st.stack.Regular
  locals : SlotMap.Regular plan st.locals
  agreed : ∀ entry ∈ st.agreed, entry.2.Regular plan

theorem State.Regular.lookup {plan : Array Nat} {st : State}
    (hState : st.Regular plan) {label : Label} {join : Join}
    (hJoin : st.agreed.lookup label = some join) :
    join.Regular plan := by
  rcases List.lookup_eq_some_iff.mp hJoin with ⟨before, after, hAgreed, _⟩
  apply hState.agreed (label, join)
  rw [hAgreed]
  simp

end Simulation

end Unboxing
